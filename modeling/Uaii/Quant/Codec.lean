/-
  Uaii.Quant.Codec — `pack_f32` and `unpack_to_f32` (`libs/uaii-quant/src/codec.cpp`).

  Numbers are exact: floats are rationals, and `nearbyint` rounds to the nearest integer,
  ties to even. The bits of a float are a parameter in both directions. A read past the
  packed buffer is undefined behaviour.

  Proved: unpacking stays in the buffer, and refuses one shorter than `packed_nbytes`,
  exactly when the format refuses the element count or the buffer has all the bytes that
  are read (`unpack_bounded_iff`).

  As built, `unpack_to_f32` ignores the length it is given (`short_buffer_overread`).
-/

import Uaii.Lib.Rounding
import Uaii.Quant.GgufDequant

namespace Uaii.Quant

/-- How numbers are stored as the bits of a float. -/
structure FloatStore where
  toBits : ℚ → UInt32
  ofBits : FloatBits ℚ

structure QuantParams where
  scale : ℚ
  zeroPoint : ℚ
  groupSize : Int
  deriving DecidableEq, Repr

/-! ## Half precision -/

def f32ToF16Bits (x : UInt32) : UInt16 :=
  let sign := (x >>> 16) &&& 0x8000
  let exp : Int := ((x >>> 23) &&& 0xff).toNat - 127 + 15
  let mant := x &&& 0x7fffff
  if exp ≤ 0 then sign.toUInt16
  else if 31 ≤ exp then (sign ||| (0x7c00 : UInt32)).toUInt16
  else (sign ||| (UInt32.ofNat exp.toNat <<< 10) ||| (mant >>> 13)).toUInt16

/-- `f16_bits_to_f32`: subnormals become zero. -/
def f16BitsToF32 (h : UInt16) : UInt32 :=
  let sign := (h &&& 0x8000).toUInt32 <<< 16
  let exp := ((h >>> 10) &&& 0x1f).toUInt32
  let mant := (h &&& 0x3ff).toUInt32
  if exp = 0 then sign
  else if exp = 31 then sign ||| (0x7f800000 : UInt32) ||| (mant <<< 13)
  else sign ||| ((exp + 127 - 15 : UInt32) <<< 23) ||| (mant <<< 13)

def f32ToBf16Bits (x : UInt32) : UInt16 := (x >>> 16).toUInt16

def bf16BitsToF32 (h : UInt16) : UInt32 := h.toUInt32 <<< 16

/-! ## The code book -/

/-- `kNf4`, in units of 10^-17. -/
def kNf4Units : List Int :=
  [-100000000000000000, -69619280099868770, -52507305145263670, -39491748809814453, -28444138169288635,
    -18477343022823334, -9105003625154495, 0, 7958029955625534, 16093020141124725, 24611230194568634,
    33791524171829224, 44070982933044434, 56261700391769410, 72295683622360230, 100000000000000000]

def kNf4 (i : Nat) : ℚ := ((kNf4Units.getD i 0 : Int) : ℚ) / ((10 ^ 17 : Int) : ℚ)

/-- The first of the nearest. -/
def nearestNf4 (x : ℚ) : Nat := (List.range 16).foldl (fun best i => if |x - kNf4 i| < |x - kNf4 best| then i else best) 0

/-! ## Packing -/

def maxAbs (xs : List ℚ) : ℚ := xs.foldl (fun m x => max m |x|) 0

/-- `scale` of INT8 and INT4: the given one, or from the largest of the values. -/
def wholeScale (src : List ℚ) (params : QuantParams) (top : ℚ) : ℚ :=
  if params.scale = 0 then (if 0 < maxAbs src then maxAbs src / top else 1) else params.scale

def groupSizeOf (params : QuantParams) : Nat := if 0 < params.groupSize then params.groupSize.toNat else 32

def groupScale (group : List ℚ) : ℚ := if 0 < maxAbs group then maxAbs group else 1

/-- The scales of NF4 and MXFP4, group by group. -/
def groupScales (src : List ℚ) (gs : Nat) : List ℚ :=
  (List.range ((src.length + gs - 1) / gs)).map fun g => groupScale ((src.drop (g * gs)).take gs)

/-- `static_cast<std::uint8_t>` of a small integer. -/
def toByte (v : Int) : UInt8 := UInt8.ofNat (v % 256).toNat

/-- `v & 0xf`. -/
def toNibble (v : Int) : Nat := (v % 16).toNat

/-- Even elements go to the low nibble of a byte, odd ones on top of it. -/
def putNibble (packed : List UInt8) (i v : Nat) : List UInt8 :=
  if i % 2 = 0 then packed.set (i / 2) (UInt8.ofNat v)
  else packed.set (i / 2) (byteAt packed (i / 2) ||| (UInt8.ofNat v <<< 4))

def packNibbles (nib : Nat → Nat) (n : Nat) : List UInt8 :=
  (List.range n).foldl (fun packed i => putNibble packed i (nib i)) (List.replicate ((n + 1) / 2) 0)

/-- The level of an INT8 element. -/
def int8Level (params : QuantParams) (scale x : ℚ) : Int := max (-128) (min 127 (Rounding.halfEven (x / scale + params.zeroPoint)))

def int4Level (scale x : ℚ) : Int := max (-8) (min 7 (Rounding.halfEven (x / scale)))

def nf4Level (scale x : ℚ) : Nat := nearestNf4 (max (-1) (min 1 (x / scale)))

/-- The scale of element `i` of an NF4 row. -/
def nf4Scale (scales : List ℚ) (params : QuantParams) (gs i : Nat) : ℚ :=
  if scales ≠ [] then scales.getD (i / gs) 0 else if params.scale ≠ 0 then params.scale else 1

def packNf4 (src : List ℚ) (params : QuantParams) (wantScales : Bool) : List UInt8 × List ℚ :=
  let gs := groupSizeOf params
  let scales := if wantScales then groupScales src gs else []
  (packNibbles (fun i => nf4Level (nf4Scale scales params gs i) (src.getD i 0)) src.length, scales)

/-- Little-endian words. -/
def wordBytes (x : UInt32) : List UInt8 := [x.toUInt8, (x >>> 8).toUInt8, (x >>> 16).toUInt8, (x >>> 24).toUInt8]

def halfBytes (h : UInt16) : List UInt8 := [h.toUInt8, (h >>> 8).toUInt8]

/-- The packed bytes, and the scales where a vector for them is given. -/
def packF32 (F : FloatStore) (src : List ℚ) (format : QuantFormat) (params : QuantParams) (wantScales : Bool) :
    Result (List UInt8 × List ℚ) :=
  match format with
  | .f32 => .ok (src.flatMap fun x => wordBytes (F.toBits x), [])
  | .f16 => .ok (src.flatMap fun x => halfBytes (f32ToF16Bits (F.toBits x)), [])
  | .bf16 => .ok (src.flatMap fun x => halfBytes (f32ToBf16Bits (F.toBits x)), [])
  | .int8 =>
    let scale := wholeScale src params 127
    .ok (src.map fun x => toByte (int8Level params scale x), if wantScales then [scale] else [])
  | .int4 =>
    let scale := wholeScale src params 7
    .ok (packNibbles (fun i => toNibble (int4Level scale (src.getD i 0))) src.length, if wantScales then [scale] else [])
  | .nf4 | .mxfp4 => .ok (packNf4 src params wantScales)
  | _ => fail .notImplemented "unsupported quant format"

/-! ## Unpacking -/

/-- A loop that reads `need` bytes of the buffer. -/
def readPacked (packed : List UInt8) (need : Nat) (values : List ℚ) : Result (List ℚ) :=
  if packed.length < need then .error (.undefined "read past the packed buffer") else .ok values

def nibbleAt (packed : List UInt8) (i : Nat) : Nat :=
  (if i % 2 = 0 then byteAt packed (i / 2) &&& 0xf else byteAt packed (i / 2) >>> 4).toNat

def signedNibble (v : Nat) : Int := if 8 ≤ v then (v : Int) - 16 else v

/-- `scale` of INT8 and INT4: the first given, or the parameter. -/
def unpackScale (scales : List ℚ) (params : QuantParams) : ℚ :=
  if scales ≠ [] then scales.getD 0 0 else if params.scale ≠ 0 then params.scale else 1

/-- The scale of element `i` of an NF4 row: the last one serves the groups past it. -/
def unpackNf4Scale (scales : List ℚ) (gs i : Nat) : ℚ :=
  if scales ≠ [] then scales.getD (min (scales.length - 1) (i / gs)) 0 else 1

/-- The values written to `dst`; `packed` is `none` for a null pointer. -/
def unpackToF32 (F : FloatBits ℚ) (packed : Option (List UInt8)) (n : Nat) (format : QuantFormat) (params : QuantParams)
    (scales : List ℚ) (hasDst : Bool) : Result (List ℚ) :=
  match packed with
  | none => fail .invalidArgument "unpack args null"
  | some packed =>
    if !hasDst then fail .invalidArgument "unpack args null"
    else match format with
    | .f32 => readPacked packed (wrap64 (n * 4)) ((List.range (wrap64 (n * 4) / 4)).map fun i => F.f32 (u32At packed (4 * i)))
    | .f16 => readPacked packed (n * 2) ((List.range n).map fun i => F.f32 (f16BitsToF32 (u16At packed (2 * i))))
    | .bf16 => readPacked packed (n * 2) ((List.range n).map fun i => F.f32 (bf16BitsToF32 (u16At packed (2 * i))))
    | .int8 => readPacked packed n
        ((List.range n).map fun i => (((i8 (byteAt packed i) : Int) : ℚ) - params.zeroPoint) * unpackScale scales params)
    | .int4 => readPacked packed ((n + 1) / 2)
        ((List.range n).map fun i => ((signedNibble (nibbleAt packed i) : Int) : ℚ) * unpackScale scales params)
    | .nf4 | .mxfp4 => readPacked packed ((n + 1) / 2)
        ((List.range n).map fun i => kNf4 (nibbleAt packed i) * unpackNf4Scale scales (groupSizeOf params) i)
    | .q4_0 | .q4_1 | .q5_0 | .q5_1 | .q8_0 | .q2_k | .q3_k | .q4_k | .q5_k | .q6_k | .iq4_nl =>
      dequantGgufRow F format packed (toI64 n)

/-! ## What is read -/

/-- The bytes read for `n` elements; a negative `int64_t` has no blocks. -/
def readBytes (f : QuantFormat) (n : Nat) : Nat :=
  match f with
  | .f32 => wrap64 (n * 4)
  | .f16 | .bf16 => n * 2
  | .int8 => n
  | .int4 | .nf4 | .mxfp4 => (n + 1) / 2
  | _ => ((toI64 n).tdiv (blockElems f)).toNat * blockBytes f

/-- The block kernel refuses a row that is not whole blocks. -/
def refuses (f : QuantFormat) (n : Nat) : Bool := isGgufBlockQuant f && (toI64 n).tmod (blockElems f) != 0

/-- Unpacking a buffer stays within it, and a buffer shorter than `packed_nbytes` is refused. -/
structure Bounded (F : FloatBits ℚ) (packed : List UInt8) (n : Nat) (format : QuantFormat) (params : QuantParams)
    (scales : List ℚ) : Prop where
  within : ∀ what, unpackToF32 F (some packed) n format params scales true ≠ .error (.undefined what)
  refused : packed.length < packedNbytes format n → Failed (unpackToF32 F (some packed) n format params scales true)

variable {F : FloatBits ℚ} {packed : List UInt8} {n : Nat} {format : QuantFormat} {params : QuantParams} {scales : List ℚ}

theorem readPacked_bounded {need short : Nat} {values : List ℚ} :
    ((∀ what, readPacked packed need values ≠ .error (.undefined what)) ∧
        (packed.length < short → Failed (readPacked packed need values))) ↔
      short ≤ packed.length ∧ need ≤ packed.length := by
  unfold readPacked
  by_cases hlt : packed.length < need
  · rw [if_pos hlt]
    constructor
    · intro h
      exact absurd rfl (h.1 "read past the packed buffer")
    · intro h
      omega
  · rw [if_neg hlt]
    constructor
    · intro h
      refine ⟨?_, by omega⟩
      by_contra hshort
      obtain ⟨code, message, he⟩ := h.2 (by omega)
      cases he
    · intro h
      exact ⟨fun _ => by simp, fun hs => by omega⟩

theorem dequantRow_bounded (k : RowKernel ℚ) {cols : Int} {short : Nat} :
    ((∀ what, dequantRow k packed cols ≠ .error (.undefined what)) ∧
        (packed.length < short → Failed (dequantRow k packed cols))) ↔
      cols.tmod k.qk ≠ 0 ∨ (short ≤ packed.length ∧ (cols.tdiv k.qk).toNat * k.size ≤ packed.length) := by
  by_cases hm : cols.tmod k.qk = 0
  · have heq : dequantRow k packed cols =
        if packed.length < (cols.tdiv k.qk).toNat * k.size then .error (.undefined "read past the packed row")
        else .ok (k.decode packed (cols.tdiv k.qk).toNat) := by
      rw [dequantRow, if_neg (by simpa using hm)]
    rw [heq]
    simp only [hm, ne_eq, not_true_eq_false, false_or]
    by_cases hlt : packed.length < (cols.tdiv k.qk).toNat * k.size
    · rw [if_pos hlt]
      constructor
      · intro h
        exact absurd rfl (h.1 "read past the packed row")
      · intro h
        omega
    · rw [if_neg hlt]
      constructor
      · intro h
        refine ⟨?_, by omega⟩
        by_contra hshort
        obtain ⟨code, message, he⟩ := h.2 (by omega)
        cases he
      · intro h
        exact ⟨fun _ => by simp, fun hs => by omega⟩
  · rw [dequantRow, if_pos hm]
    exact ⟨fun _ => .inl hm, fun _ => ⟨fun what => by simp [fail], fun _ => ⟨_, _, rfl⟩⟩⟩

theorem bounded_iff_parts : Bounded F packed n format params scales ↔
    (∀ what, unpackToF32 F (some packed) n format params scales true ≠ .error (.undefined what)) ∧
      (packed.length < packedNbytes format n → Failed (unpackToF32 F (some packed) n format params scales true)) :=
  ⟨fun h => ⟨h.within, h.refused⟩, fun h => ⟨h.1, h.2⟩⟩

theorem block_bounded (hf : isGgufBlockQuant format = true) {short : Nat} :
    ((∀ what, dequantGgufRow F format packed (toI64 n) ≠ .error (.undefined what)) ∧
        (packed.length < short → Failed (dequantGgufRow F format packed (toI64 n)))) ↔
      refuses format n = true ∨
        (short ≤ packed.length ∧ ((toI64 n).tdiv (blockElems format)).toNat * blockBytes format ≤ packed.length) := by
  obtain ⟨k, hk, hq, hs⟩ := rowKernel_spec F hf
  have hrow : dequantGgufRow F format packed (toI64 n) = dequantRow k packed (toI64 n) := by simp only [dequantGgufRow, hk]
  rw [hrow, dequantRow_bounded, hq, hs]
  simp [refuses, hf]

/-- Unpacking keeps to the buffer exactly when the format refuses the count, or the buffer
    has `packed_nbytes` bytes and all the bytes that are read. -/
theorem unpack_bounded_iff (F : FloatBits ℚ) (packed : List UInt8) (n : Nat) (format : QuantFormat) (params : QuantParams)
    (scales : List ℚ) : Bounded F packed n format params scales ↔
      refuses format n = true ∨ (packedNbytes format n ≤ packed.length ∧ readBytes format n ≤ packed.length) := by
  rw [bounded_iff_parts]
  by_cases hf : isGgufBlockQuant format = true
  · have hrow : unpackToF32 F (some packed) n format params scales true = dequantGgufRow F format packed (toI64 n) := by
      cases format <;> first | rfl | cases hf
    have hread : readBytes format n = ((toI64 n).tdiv (blockElems format)).toNat * blockBytes format := by
      cases format <;> first | rfl | cases hf
    rw [hrow, hread]
    exact block_bounded hf
  · have hall : refuses format n = false := by simp [refuses, hf]
    rw [hall]
    cases format <;> first | exact readPacked_bounded.trans (by simp [readBytes]) | exact absurd rfl hf

/-- Two floats from a buffer of four bytes: the call reads on past it. -/
theorem short_buffer_overread : ¬ Bounded ⟨fun _ => 0, fun _ => 0⟩ [0, 0, 128, 63] 2 .f32 ⟨1, 0, 0⟩ [] := by
  intro h
  exact h.within "read past the packed buffer" rfl

end Uaii.Quant
