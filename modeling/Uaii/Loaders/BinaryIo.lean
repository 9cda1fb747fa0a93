/-
  Uaii.Loaders.BinaryIo — `detail::ByteReader` (`libs/uaii-loaders/src/binary_io.hpp`).

  The file system is a function from paths to contents. A read compares
  `pos_ + n` with the size in `size_t`, so the comparison wraps: a read whose range
  does not fit but whose wrapped end does is undefined behaviour, not an error.

  Proved: a read that returns bytes read them inside the file (`readBytes_ok`), and
  reading in two pieces is reading in one (`readBytes_split`).
-/

import Uaii.Lib.Codec
import Uaii.Quant.GgufDequant

namespace Uaii.Loaders

open Codec (leBytes leValue)
open Uaii.Quant (byteAt u16At u32At)

abbrev FileSystem := String → Option (List UInt8)

structure ByteReader where
  data : List UInt8
  pos : Nat
  deriving DecidableEq, Repr

namespace ByteReader

def fromFile (fs : FileSystem) (path : String) : Result ByteReader :=
  match fs path with
  | some data => .ok ⟨data, 0⟩
  | none => fail .notFound ("cannot open " ++ path)

def seek (r : ByteReader) (p : Nat) : ByteReader := { r with pos := p }

def readBytes (r : ByteReader) (n : Nat) : Result (List UInt8 × ByteReader) :=
  if wrap64 (r.pos + n) > r.data.length then fail .invalidArgument "truncated binary read"
  else if r.pos + n > r.data.length then .error (.undefined "read outside the file data")
  else .ok ((r.data.drop r.pos).take n, { r with pos := r.pos + n })

/-- `read_pod` of a 16-bit word. -/
def readU16 (r : ByteReader) : Result (UInt16 × ByteReader) := do
  let (b, r) ← r.readBytes 2
  .ok (u16At b 0, r)

/-- `read_pod` of an unsigned integer of `k` bytes. -/
def readPod (r : ByteReader) (k : Nat) : Result (Nat × ByteReader) := do
  let (b, r) ← r.readBytes k
  .ok (leValue b, r)

/-- `std::string::max_size()`. -/
def maxString : Nat := 2 ^ 63 - 2

/-- `read_string`, as the string's bytes. -/
def readString (r : ByteReader) : Result (List UInt8 × ByteReader) := do
  let (n, r) ← r.readPod 8
  if r.data.length < wrap64 (r.pos + n) then fail .invalidArgument "truncated string"
  else if maxString < n then .error (.thrown "std::length_error")
  else if r.data.length < r.pos + n then .error (.undefined "read outside the file data")
  else .ok ((r.data.drop r.pos).take n, { r with pos := r.pos + n })

/-! ## Reads -/

theorem readBytes_ok {r r' : ByteReader} {n : Nat} {b : List UInt8} (h : r.readBytes n = .ok (b, r')) :
    r.pos + n ≤ r.data.length ∧ b = (r.data.drop r.pos).take n ∧ r' = { r with pos := r.pos + n } := by
  unfold readBytes at h
  split at h
  · exact absurd h (fail_ne_ok _ _ _)
  · split at h
    · cases h
    · cases h
      exact ⟨by omega, rfl, rfl⟩

theorem readBytes_of_le {r : ByteReader} {n : Nat} (h : r.pos + n ≤ r.data.length) :
    r.readBytes n = .ok ((r.data.drop r.pos).take n, { r with pos := r.pos + n }) := by
  unfold readBytes
  rw [if_neg (by have := wrap64_le (r.pos + n); omega), if_neg (by omega)]

theorem readBytes_length {r r' : ByteReader} {n : Nat} {b : List UInt8} (h : r.readBytes n = .ok (b, r')) :
    b.length = n := by
  obtain ⟨hle, rfl, -⟩ := readBytes_ok h
  simp only [List.length_take, List.length_drop]
  omega

/-- Reading `a + b` bytes is reading `a` and then `b`. -/
theorem readBytes_split {r r' : ByteReader} {a b : Nat} {bytes : List UInt8}
    (h : r.readBytes (a + b) = .ok (bytes, r')) :
    r.readBytes a = .ok (bytes.take a, { r with pos := r.pos + a }) ∧
      ByteReader.readBytes { r with pos := r.pos + a } b = .ok (bytes.drop a, r') := by
  obtain ⟨hle, rfl, rfl⟩ := readBytes_ok h
  constructor
  · rw [readBytes_of_le (by omega), List.take_take, Nat.min_eq_left (by omega)]
  · rw [readBytes_of_le (by simp only; omega)]
    simp only [List.drop_take, List.drop_drop, Nat.add_sub_cancel_left, Nat.add_assoc]

end ByteReader

end Uaii.Loaders
