/-
  Uaii.Loaders.ReadInside — reads that return success, and the bytes they read
  (`libs/uaii-loaders/src/binary_io.hpp`: `ByteReader`; `safetensors.cpp`:
  `safetensors_load_tensor_f32`).

  The parsers seek and read; positions and lengths come from the file. A check adds two
  64-bit words and compares their wrapped sum with the size, and the element count is the
  wrapped product of the dimensions.

  Proved, over every sequence of calls (`trace`): a call that passes its check reads inside
  the data exactly when its position and length do not wrap (`passed_inside_iff`), and a
  load that passes returns what its header says exactly when neither the product of the
  dimensions nor the tensor's end wraps (`load_sound_iff`). Both are needed
  (`wrapped_checks_pass`).
-/

import Uaii.Loaders.Safetensors

namespace Uaii.Loaders

open Codec (leBytes leValue textOf bytesOf)

inductive Call where
  | seek (p : Nat)
  /-- `read_pod` and `read_bytes`. -/
  | read (n : Nat)
  | readString
  deriving DecidableEq, Repr

namespace ByteReader

def call (r : ByteReader) : Call → Result ByteReader
  | .seek p => .ok (r.seek p)
  | .read n => do
    let (_, r) ← r.readBytes n
    .ok r
  | .readString => do
    let (_, r) ← r.readString
    .ok r

/-- The length that `read_string` reads first. -/
def stringLength (r : ByteReader) : Nat := leValue ((r.data.drop r.pos).take 8)

/-- The bytes of a call lie in the data. -/
def Inside (r : ByteReader) : Call → Prop
  | .seek _ => True
  | .read n => r.pos + n ≤ r.data.length
  | .readString => r.pos + 8 ≤ r.data.length ∧ r.pos + 8 + r.stringLength ≤ r.data.length

/-- The position and the length that are added do not wrap. -/
def Straight (r : ByteReader) : Call → Prop
  | .seek _ => True
  | .read n => r.pos + n < 2 ^ 64
  | .readString => r.pos + 8 < 2 ^ 64

/-- The calls that are made, each with the reader it is made on. -/
def trace (r : ByteReader) : List Call → List (ByteReader × Call)
  | [] => []
  | c :: cs =>
    (r, c) :: match r.call c with
      | .ok r' => r'.trace cs
      | .error _ => []

variable {r : ByteReader} {n : Nat}

/-! ## One call -/

theorem readBytes_passed (h : Passed (r.readBytes n)) : wrap64 (r.pos + n) ≤ r.data.length := by
  unfold readBytes at h
  split at h
  · exact absurd h fail_not_passed
  · omega

/-- A length that wraps is longer than a string. -/
theorem readString_inside (hdata : r.data.length < 2 ^ 63) (hpos : r.pos + 8 < 2 ^ 64) (h : Passed r.readString) :
    r.Inside .readString := by
  by_cases hle : r.pos + 8 ≤ r.data.length
  · refine ⟨hle, ?_⟩
    have hpod : r.readPod 8 = .ok (r.stringLength, { r with pos := r.pos + 8 }) := by
      rw [readPod, readBytes_of_le hle]
      rfl
    unfold readString at h
    simp only [hpod, ok_bind] at h
    split at h
    · exact absurd h fail_not_passed
    · rename_i hwrap
      split at h
      · rcases h with ⟨a, ha⟩ | ⟨what, hw⟩
        · cases ha
        · cases hw
      · rename_i hmax
        unfold maxString at hmax
        rwa [wrap64_of_lt (by omega), not_lt] at hwrap
  · have hshort : r.data.length < wrap64 (r.pos + 8) := by
      rw [wrap64_of_lt hpos]
      omega
    have hfail : r.readPod 8 = fail .invalidArgument "truncated binary read" := by simp [readPod, readBytes, hshort, fail]
    rw [readString, hfail] at h
    exact absurd h fail_not_passed

theorem passed_inside {c : Call} (hdata : r.data.length < 2 ^ 63) (hc : r.Straight c) (h : Passed (r.call c)) : r.Inside c := by
  cases c with
  | seek p => trivial
  | read n =>
    have hle := readBytes_passed h.first
    rwa [wrap64_of_lt hc] at hle
  | readString => exact readString_inside hdata hc h.first

theorem inside_straight {c : Call} (hdata : r.data.length < 2 ^ 63) (h : r.Inside c) : r.Straight c := by
  cases c with
  | seek p => trivial
  | read n =>
    show r.pos + n < 2 ^ 64
    have hle : r.pos + n ≤ r.data.length := h
    omega
  | readString =>
    show r.pos + 8 < 2 ^ 64
    have hle := h.1
    omega

/-! ## A run -/

/-- The data does not change. -/
theorem call_data {r' : ByteReader} {c : Call} (h : r.call c = .ok r') : r'.data = r.data := by
  cases c with
  | seek p =>
    cases h
    rfl
  | read n =>
    obtain ⟨⟨b, r''⟩, hread, h⟩ := bind_ok h
    obtain ⟨-, -, rfl⟩ := readBytes_ok hread
    cases h
    rfl
  | readString =>
    obtain ⟨⟨b, r''⟩, hstring, h⟩ := bind_ok h
    cases h
    unfold readString at hstring
    obtain ⟨⟨m, r3⟩, hpod, hstring⟩ := bind_ok hstring
    obtain ⟨⟨w, r4⟩, hread, hpod⟩ := bind_ok hpod
    obtain ⟨-, -, rfl⟩ := readBytes_ok hread
    cases hpod
    dsimp only at hstring
    repeat' split at hstring
    · exact absurd hstring (fail_ne_ok _ _ _)
    · cases hstring
    · cases hstring
    · cases hstring
      rfl

theorem trace_data : ∀ {cs : List Call} {r : ByteReader}, ∀ s ∈ r.trace cs, s.1.data = r.data := by
  intro cs
  induction cs with
  | nil => simp [trace]
  | cons c cs ih =>
    intro r s hs
    rw [trace] at hs
    rcases List.mem_cons.mp hs with rfl | hs
    · rfl
    · cases hc : r.call c with
      | error e => simp [hc] at hs
      | ok r' =>
        rw [hc] at hs
        rw [ih s hs, call_data hc]

end ByteReader

/-- A run's calls that pass read inside exactly when none of them wraps. -/
theorem passed_inside_iff {data : List UInt8} (hdata : data.length < 2 ^ 63) (cs : List Call) :
    (∀ s ∈ ByteReader.trace ⟨data, 0⟩ cs, Passed (s.1.call s.2) → s.1.Inside s.2) ↔
      ∀ s ∈ ByteReader.trace ⟨data, 0⟩ cs, Passed (s.1.call s.2) → s.1.Straight s.2 := by
  have hlen : ∀ s ∈ ByteReader.trace ⟨data, 0⟩ cs, s.1.data.length < 2 ^ 63 := by
    intro s hs
    rw [ByteReader.trace_data s hs]
    exact hdata
  exact ⟨fun h s hs hpass => ByteReader.inside_straight (hlen s hs) (h s hs hpass),
    fun h s hs hpass => ByteReader.passed_inside (hlen s hs) (h s hs hpass) hpass⟩

/-! ## Loading a tensor -/

section Load

variable {fs : FileSystem} {file : SafetensorsFile} {name : String} {info : SafetensorsTensorInfo} {data : List UInt8}

/-- What is returned is what the header says: so many floats, from bytes of the file. -/
def LoadSound (fs : FileSystem) (file : SafetensorsFile) (name : String) (info : SafetensorsTensorInfo) (data : List UInt8) : Prop :=
  ∃ out shape, safetensorsLoadTensorF32 fs file name = .ok (out, shape) ∧ info.shape.prod = out.length ∧
    file.dataOffset + info.first + info.nbytes ≤ data.length

def NoWrap (file : SafetensorsFile) (info : SafetensorsTensorInfo) : Prop :=
  info.shape.prod < 2 ^ 64 ∧ file.dataOffset + info.first + info.nbytes < 2 ^ 64

instance (file : SafetensorsFile) (info : SafetensorsTensorInfo) : Decidable (NoWrap file info) :=
  inferInstanceAs (Decidable (_ ∧ _))

theorem load_sound_iff (hfs : fs file.path = some data) (hdata : data.length < 2 ^ 63)
    (hinfo : file.tensors.find? (·.name == name) = some info) (h : Passed (safetensorsLoadTensorF32 fs file name)) :
    LoadSound fs file name info data ↔ NoWrap file info := by
  obtain ⟨info', data', numel, stored, hinfo', hfs', hnumel, hmax, hstored, hnbytes⟩ := load_checked h
  obtain rfl := Option.some.inj (hinfo.symm.trans hinfo')
  obtain rfl := Option.some.inj (hfs.symm.trans hfs')
  have hload := load_of hinfo hfs hnumel hmax hstored hnbytes
  obtain ⟨hnonneg, hprod⟩ := loadNumel_iff.mp hnumel
  have hpos := List.prod_nonneg hnonneg
  unfold maxFloats at hmax
  apply Iff.intro
  · intro ⟨out, shape, hok, hcount, hinside⟩
    rw [hload] at hok
    obtain ⟨p, -, hp⟩ := bind_ok hok
    have hlen : out.length = numel := by
      rw [← (Prod.mk.inj (Except.ok.inj hp)).1]
      simp
    refine ⟨?_, by omega⟩
    rw [hcount, hlen]
    omega
  · intro ⟨hsmall, hend⟩
    rw [hload] at h
    have hstart : file.start info = file.dataOffset + info.first := wrap64_of_lt (by omega)
    have hle := ByteReader.readBytes_passed (Passed.first h)
    dsimp only at hle
    rw [hstart, wrap64_of_lt hend] at hle
    rw [hstart, ByteReader.readBytes_of_le hle] at hload
    refine ⟨_, _, hload, ?_, hle⟩
    rw [List.length_map, List.length_range, hprod, wrap64_of_lt (by omega)]
    omega

end Load

/-- Reads of a file stay inside it, and a load returns what its header says, exactly when no sum and no product wraps. -/
theorem reads_sound_iff (data : List UInt8) (hdata : data.length < 2 ^ 63) :
    (∀ cs, (∀ s ∈ ByteReader.trace ⟨data, 0⟩ cs, Passed (s.1.call s.2) → s.1.Inside s.2) ↔
      ∀ s ∈ ByteReader.trace ⟨data, 0⟩ cs, Passed (s.1.call s.2) → s.1.Straight s.2) ∧
    ∀ (fs : FileSystem) (file : SafetensorsFile) (name : String) (info : SafetensorsTensorInfo), fs file.path = some data →
      file.tensors.find? (·.name == name) = some info → Passed (safetensorsLoadTensorF32 fs file name) →
        (LoadSound fs file name info data ↔ NoWrap file info) :=
  ⟨passed_inside_iff hdata, fun _ _ _ _ hfs hinfo h => load_sound_iff hfs hdata hinfo h⟩

/-- The four bytes of 1.0, and a header that lists them. -/
def oneFloat : List UInt8 := [0, 0, 0x80, 0x3F]

def oneInfo : SafetensorsTensorInfo := ⟨"a", "F32", [1], 0, 4⟩

def oneFile : SafetensorsFile := ⟨"a.safetensors", 0, 0, [], [oneInfo]⟩

theorem one_float_sound : (∀ s ∈ ByteReader.trace ⟨oneFloat, 0⟩ [.read 4], Passed (s.1.call s.2) → s.1.Inside s.2) ∧
    LoadSound (fun _ => some oneFloat) oneFile "a" oneInfo oneFloat := by
  have hsound := reads_sound_iff oneFloat (by decide)
  refine ⟨(hsound.1 [.read 4]).mpr ?_, (hsound.2 _ oneFile "a" oneInfo rfl (by decide) ?_).mpr (by decide)⟩
  · intro s hs _
    obtain rfl : s = (⟨oneFloat, 0⟩, .read 4) := by simpa [ByteReader.trace, ByteReader.call, ByteReader.readBytes, oneFloat, wrap64] using hs
    show 0 + 4 < 2 ^ 64
    decide
  · exact .inl ⟨([0x3F800000], [1]), by decide +kernel⟩

/-- A header whose dimensions have the product 2 ^ 64. -/
def wrappedShape : List UInt8 :=
  let header := bytesOf "\x7b\"a\":\x7b\"dtype\":\"F32\",\"shape\":[4294967296,4294967296],\"data_offsets\":[0,0]\x7d\x7d".toList
  leBytes 8 header.length ++ header

theorem wrapped_checks_pass :
    (safetensorsReadHeader MapOrder.inserted (fun _ => some wrappedShape) "a.safetensors" >>= fun file =>
      safetensorsLoadTensorF32 (fun _ => some wrappedShape) file "a") = .ok ([], [2 ^ 32, 2 ^ 32]) ∧
    ([2 ^ 32, 2 ^ 32] : List Int).prod ≠ ([] : List UInt32).length ∧
    ∃ s ∈ ByteReader.trace ⟨List.replicate 8 0, 0⟩ [.seek (2 ^ 64 - 4), .read 8], Passed (s.1.call s.2) ∧ ¬ s.1.Inside s.2 := by
  have hmade : (⟨List.replicate 8 0, 2 ^ 64 - 4⟩, .read 8) ∈ ByteReader.trace ⟨List.replicate 8 0, 0⟩ [.seek (2 ^ 64 - 4), .read 8] := by
    simp [ByteReader.trace, ByteReader.call, ByteReader.seek]
  refine ⟨by decide +kernel, by decide, _, hmade, ?_, ?_⟩
  · exact .inr ⟨"read outside the file data", by decide +kernel⟩
  · show ¬ 2 ^ 64 - 4 + 8 ≤ 8
    decide

end Uaii.Loaders
