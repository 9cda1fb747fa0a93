/-
  Uaii.Quant.Formats — `QuantFormat`, its names, `is_gguf_block_quant` and `packed_nbytes`
  (`include/uaii/quant/formats.hpp`).
-/

import Uaii.Core.Error

namespace Uaii.Quant

inductive QuantFormat where
  | f32
  | f16
  | bf16
  | int8
  | int4
  | nf4
  | mxfp4
  | q4_0
  | q4_1
  | q5_0
  | q5_1
  | q8_0
  | q2_k
  | q3_k
  | q4_k
  | q5_k
  | q6_k
  | iq4_nl
  deriving DecidableEq, Repr

def QuantFormat.toString : QuantFormat → String
  | .f32 => "f32"
  | .f16 => "f16"
  | .bf16 => "bf16"
  | .int8 => "int8"
  | .int4 => "int4"
  | .nf4 => "nf4"
  | .mxfp4 => "mxfp4"
  | .q4_0 => "q4_0"
  | .q4_1 => "q4_1"
  | .q5_0 => "q5_0"
  | .q5_1 => "q5_1"
  | .q8_0 => "q8_0"
  | .q2_k => "q2_k"
  | .q3_k => "q3_k"
  | .q4_k => "q4_k"
  | .q5_k => "q5_k"
  | .q6_k => "q6_k"
  | .iq4_nl => "iq4_nl"

def parseQuantFormat (text : String) : Option QuantFormat :=
  if text = "f32" ∨ text = "fp32" then some .f32
  else if text = "f16" ∨ text = "fp16" then some .f16
  else if text = "bf16" then some .bf16
  else if text = "int8" ∨ text = "i8" then some .int8
  else if text = "int4" ∨ text = "i4" then some .int4
  else if text = "nf4" then some .nf4
  else if text = "mxfp4" then some .mxfp4
  else if text = "q4_0" then some .q4_0
  else if text = "q4_1" then some .q4_1
  else if text = "q5_0" then some .q5_0
  else if text = "q5_1" then some .q5_1
  else if text = "q8_0" then some .q8_0
  else if text = "q2_k" then some .q2_k
  else if text = "q3_k" then some .q3_k
  else if text = "q4_k" then some .q4_k
  else if text = "q5_k" then some .q5_k
  else if text = "q6_k" then some .q6_k
  else if text = "iq4_nl" then some .iq4_nl
  else none

@[simp] theorem parseQuantFormat_toString (f : QuantFormat) : parseQuantFormat f.toString = some f := by
  cases f <;> decide

/-- `f >= Q4_0 && f <= Q6_K || f == IQ4_NL` on the enumerators' order. -/
def isGgufBlockQuant : QuantFormat → Bool
  | .q4_0 | .q4_1 | .q5_0 | .q5_1 | .q8_0 | .q2_k | .q3_k | .q4_k | .q5_k | .q6_k | .iq4_nl => true
  | _ => false

/-- Bytes of `n` elements, in `size_t`. -/
def packedNbytes (f : QuantFormat) (n : Nat) : Nat :=
  match f with
  | .f32 => wrap64 (n * 4)
  | .f16 | .bf16 => wrap64 (n * 2)
  | .int8 => n
  | .int4 | .nf4 | .mxfp4 => wrap64 (n + 1) / 2
  | .q4_0 => wrap64 (n / 32 * 18)
  | .q4_1 => wrap64 (n / 32 * 20)
  | .q5_0 => wrap64 (n / 32 * 22)
  | .q5_1 => wrap64 (n / 32 * 24)
  | .q8_0 => wrap64 (n / 32 * 34)
  | .q2_k => wrap64 (n / 256 * 84)
  | .q3_k => wrap64 (n / 256 * 110)
  | .q4_k => wrap64 (n / 256 * 144)
  | .q5_k => wrap64 (n / 256 * 176)
  | .q6_k => wrap64 (n / 256 * 210)
  | .iq4_nl => wrap64 (n / 32 * 18)

/-- Elements of one block (1 for the formats without blocks). -/
def blockElems : QuantFormat → Nat
  | .q4_0 | .q4_1 | .q5_0 | .q5_1 | .q8_0 | .iq4_nl => 32
  | .q2_k | .q3_k | .q4_k | .q5_k | .q6_k => 256
  | _ => 1

/-- `sizeof` the format's block struct. -/
def blockBytes : QuantFormat → Nat
  | .q4_0 | .iq4_nl => 18
  | .q4_1 => 20
  | .q5_0 => 22
  | .q5_1 => 24
  | .q8_0 => 34
  | .q2_k => 84
  | .q3_k => 110
  | .q4_k => 144
  | .q5_k => 176
  | .q6_k => 210
  | _ => 0

theorem packedNbytes_block {f : QuantFormat} (hf : isGgufBlockQuant f = true) (n : Nat) :
    packedNbytes f n = wrap64 (n / blockElems f * blockBytes f) := by
  cases f <;> simp_all [isGgufBlockQuant, packedNbytes, blockElems, blockBytes]

/-- A block is at most 34/32 bytes an element, so nothing wraps while the elements fit
    a vector of floats. -/
theorem packedNbytes_of_lt {f : QuantFormat} (hf : isGgufBlockQuant f = true) {n : Nat} (hn : n < 2 ^ 62) :
    packedNbytes f n = n / blockElems f * blockBytes f := by
  rw [packedNbytes_block hf]
  apply wrap64_of_lt
  cases f <;> simp_all only [isGgufBlockQuant, blockElems, blockBytes]
  all_goals omega

end Uaii.Quant
