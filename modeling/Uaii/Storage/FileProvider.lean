/-
  Uaii.Storage.FileProvider — `FileStorageProvider` (`libs/uaii-storage/src/file_provider.cpp`),
  mapped and buffered, on a file system whose files stay as they are.

  `open` gives a handle its id and offset 0; the handle is the caller's, who may set its
  offset before a read. The mapped path compares `offset + size` with the file's size, in
  64 bits and without the handle's offset, and copies from `handle.offset + offset`, in 64
  bits too. The buffered path seeks there, as a `long`, and relies on a short read. A copy
  that leaves the mapping is undefined.

  Proved: whatever was called before, the two paths of an open file read its bytes at
  `handle.offset + offset` or both refuse, exactly when the range lies in the file or both
  sums refuse it (`read_exact_iff`).

  As built, a handle with an offset is read past the end of its mapping
  (`handle_offset_unchecked`).
-/

import Uaii.Loaders.BinaryIo
import Mathlib.Logic.Function.Basic

namespace Uaii.Storage

open Uaii.Loaders (FileSystem)

inductive StorageTier where
  | unknown
  | ram
  | mmap
  | disk
  | nvme
  | objectStore
  | remote
  | compressed
  deriving DecidableEq, Repr

structure TensorHandle where
  id : Nat
  tier : StorageTier
  uri : String
  offset : Nat
  sizeBytes : Nat
  deriving DecidableEq, Repr

structure MappedFile where
  path : String
  view : List UInt8
  deriving DecidableEq, Repr

def MappedFile.size (mf : MappedFile) : Nat := mf.view.length

/-- What the calls of `open` on the file descriptor answer. -/
structure Syscalls where
  fstat : Bool
  mmap : Bool
  fseek : Bool
  ftell : Bool
  deriving DecidableEq, Repr

/-- Ids count the opens of a process, which are fewer than 2^64. -/
structure FileStorageProvider where
  preferMmap : Bool
  nextId : Nat
  bytesRead : Nat
  paths : Nat → Option String
  maps : Nat → Option MappedFile

namespace FileStorageProvider

def init (preferMmap : Bool) : FileStorageProvider := ⟨preferMmap, 1, 0, fun _ => none, fun _ => none⟩

/-- `unordered_map::emplace`: an entry that is there stays. -/
def emplace (maps : Nat → Option MappedFile) (id : Nat) (mf : MappedFile) : Nat → Option MappedFile :=
  match maps id with
  | some _ => maps
  | none => Function.update maps id (some mf)

/-- `out` is false for a null pointer. -/
def open_ (fs : FileSystem) (sys : Syscalls) (p : FileStorageProvider) (uri : String) (out : Bool) :
    Result (TensorHandle × FileStorageProvider) :=
  if out = false then fail .invalidArgument "handle out null"
  else if p.preferMmap then
    match fs uri with
    | none => fail .ioError ("open failed " ++ uri)
    | some data =>
      if sys.fstat = false then fail .ioError "fstat failed"
      else if data.length = 0 then fail .ioError ("empty file " ++ uri)
      else if sys.mmap = false then fail .ioError ("mmap failed " ++ uri)
      else .ok (⟨p.nextId, .mmap, uri, 0, data.length⟩,
        { p with
          nextId := p.nextId + 1
          paths := Function.update p.paths p.nextId (some uri)
          maps := emplace p.maps p.nextId ⟨uri, data⟩ })
  else
    match fs uri with
    | none => fail .ioError ("failed to open " ++ uri)
    | some data =>
      if sys.fseek = false then fail .ioError ("seek failed " ++ uri)
      else if sys.ftell = false then fail .ioError ("ftell failed " ++ uri)
      else .ok (⟨p.nextId, .disk, uri, 0, data.length⟩,
        { p with nextId := p.nextId + 1, paths := Function.update p.paths p.nextId (some uri) })

def close (p : FileStorageProvider) (handle : TensorHandle) : FileStorageProvider :=
  { p with paths := Function.update p.paths handle.id none, maps := Function.update p.maps handle.id none }

def resetStats (p : FileStorageProvider) : FileStorageProvider := { p with bytesRead := 0 }

/-- The bounds test and the `memcpy` of the mapped path. -/
def readMapped (mf : MappedFile) (handle : TensorHandle) (offset size : Nat) : Result (List UInt8) :=
  if mf.size < wrap64 (offset + size) then fail .invalidArgument "mmap read OOB"
  else if mf.size < wrap64 (handle.offset + offset) + size then .error (.undefined "read past the mapping")
  else .ok ((mf.view.drop (wrap64 (handle.offset + offset))).take size)

/-- `fopen`, `fseek` and `fread` of the buffered path. -/
def readBuffered (fs : FileSystem) (path : String) (handle : TensorHandle) (offset size : Nat) : Result (List UInt8) :=
  match fs path with
  | none => fail .ioError ("failed to open for read " ++ path)
  | some data =>
    if toI64 (handle.offset + offset) < 0 then fail .ioError "seek failed"
    else
      let got := (data.drop (wrap64 (handle.offset + offset))).take size
      if got.length ≠ size then fail .ioError ("short read from " ++ path) else .ok got

/-- The mapped path where the handle is mapped, else the buffered one. -/
def readEither (p : FileStorageProvider) (fs : FileSystem) (handle : TensorHandle) (offset size : Nat) : Result (List UInt8) :=
  match p.maps handle.id with
  | some mf => readMapped mf handle offset size
  | none =>
    match p.paths handle.id with
    | none => fail .notFound "handle not open"
    | some path => readBuffered fs path handle offset size

/-- The bytes that arrive in `dst`, which is false for a null pointer. -/
def read (fs : FileSystem) (p : FileStorageProvider) (handle : TensorHandle) (offset size : Nat) (dst : Bool) :
    Result (List UInt8 × FileStorageProvider) :=
  if dst = false ∨ size = 0 then fail .invalidArgument "read dst/size invalid"
  else do
    let bytes ← p.readEither fs handle offset size
    .ok (bytes, { p with bytesRead := wrap64 (p.bytesRead + size) })

/-- Any calls, with any handles. -/
inductive Reachable (fs : FileSystem) (preferMmap : Bool) : FileStorageProvider → Prop
  | init : Reachable fs preferMmap (init preferMmap)
  | open_ {p p' : FileStorageProvider} {sys : Syscalls} {uri : String} {out : Bool} {handle : TensorHandle} :
      Reachable fs preferMmap p → p.open_ fs sys uri out = .ok (handle, p') → Reachable fs preferMmap p'
  | close {p : FileStorageProvider} (handle : TensorHandle) : Reachable fs preferMmap p → Reachable fs preferMmap (p.close handle)
  | read {p p' : FileStorageProvider} {handle : TensorHandle} {offset size : Nat} {dst : Bool} {bytes : List UInt8} :
      Reachable fs preferMmap p → p.read fs handle offset size dst = .ok (bytes, p') → Reachable fs preferMmap p'
  | resetStats {p : FileStorageProvider} : Reachable fs preferMmap p → Reachable fs preferMmap p.resetStats

variable {fs : FileSystem} {sys : Syscalls} {p p' : FileStorageProvider} {handle : TensorHandle} {uri : String}
  {data bytes : List UInt8} {out dst preferMmap : Bool} {offset size : Nat}

/-! ## What is open -/

/-- The entry of `impl_->maps` that goes with an open path. -/
def mapOf (preferMmap : Bool) (uri : String) (data : List UInt8) : Option MappedFile :=
  if preferMmap then some ⟨uri, data⟩ else none

structure Wf (fs : FileSystem) (preferMmap : Bool) (p : FileStorageProvider) : Prop where
  prefer : p.preferMmap = preferMmap
  fresh : ∀ id, p.nextId ≤ id → p.paths id = none ∧ p.maps id = none
  /-- An open path names a file, and the mapping is that file's. -/
  opened : ∀ id uri, p.paths id = some uri → ∃ data, fs uri = some data ∧ p.maps id = mapOf preferMmap uri data

theorem init_wf : (init preferMmap).Wf fs preferMmap where
  prefer := rfl
  fresh _ _ := ⟨rfl, rfl⟩
  opened _ _ h := by cases h

/-- What a successful `open` did. -/
theorem open_ok (h : p.open_ fs sys uri out = .ok (handle, p')) :
    handle.id = p.nextId ∧ handle.uri = uri ∧ handle.offset = 0 ∧ ∃ data, fs uri = some data ∧ handle.sizeBytes = data.length ∧
      p' = { p with
        nextId := p.nextId + 1
        paths := Function.update p.paths p.nextId (some uri)
        maps := if p.preferMmap then emplace p.maps p.nextId ⟨uri, data⟩ else p.maps } := by
  unfold open_ at h
  split at h
  · exact absurd h (fail_ne_ok _ _ _)
  · cases hfs : fs uri with
    | none =>
      simp only [hfs] at h
      split at h <;> exact absurd h (fail_ne_ok _ _ _)
    | some data =>
      simp only [hfs] at h
      split at h
      · rename_i hp
        split_ifs at h
        · exact absurd h (fail_ne_ok _ _ _)
        · exact absurd h (fail_ne_ok _ _ _)
        · exact absurd h (fail_ne_ok _ _ _)
        · cases h
          exact ⟨rfl, rfl, rfl, data, rfl, rfl, by rw [if_pos hp]⟩
      · rename_i hp
        split_ifs at h
        · exact absurd h (fail_ne_ok _ _ _)
        · exact absurd h (fail_ne_ok _ _ _)
        · cases h
          exact ⟨rfl, rfl, rfl, data, rfl, rfl, by rw [if_neg hp]⟩

theorem open_wf (hp : p.Wf fs preferMmap) (h : p.open_ fs sys uri out = .ok (handle, p')) : p'.Wf fs preferMmap := by
  obtain ⟨-, -, -, data, hfs, -, rfl⟩ := open_ok h
  have hnew : emplace p.maps p.nextId ⟨uri, data⟩ = Function.update p.maps p.nextId (some ⟨uri, data⟩) := by
    rw [emplace, (hp.fresh p.nextId (Nat.le_refl _)).2]
  refine ⟨hp.prefer, fun id hid => ?_, fun id uri' hopen => ?_⟩
  · have hne : id ≠ p.nextId := Nat.ne_of_gt hid
    have hold := hp.fresh id (Nat.le_of_succ_le hid)
    refine ⟨by simpa [hne] using hold.1, ?_⟩
    dsimp only
    rw [hnew]
    split <;> simp [hne, hold.2]
  · by_cases hid : id = p.nextId
    · subst hid
      simp only [Function.update_self, Option.some.injEq] at hopen
      subst hopen
      refine ⟨data, hfs, ?_⟩
      dsimp only
      rw [hp.prefer, hnew, mapOf]
      split
      · rw [Function.update_self]
      · exact (hp.fresh _ (Nat.le_refl _)).2
    · simp only [Function.update_of_ne hid] at hopen
      obtain ⟨data', hfs', hmap⟩ := hp.opened id uri' hopen
      refine ⟨data', hfs', ?_⟩
      dsimp only
      rw [hnew, ← hmap]
      split
      · rw [Function.update_of_ne hid]
      · rfl

theorem close_wf (hp : p.Wf fs preferMmap) (handle : TensorHandle) : (p.close handle).Wf fs preferMmap := by
  refine ⟨hp.prefer, fun id hid => ?_, fun id uri' hopen => ?_⟩
  · have hold := hp.fresh id hid
    by_cases heq : id = handle.id
    · subst heq
      exact ⟨Function.update_self .., Function.update_self ..⟩
    · exact ⟨(Function.update_of_ne heq ..).trans hold.1, (Function.update_of_ne heq ..).trans hold.2⟩
  · by_cases heq : id = handle.id
    · subst heq
      cases (Function.update_self ..).symm.trans hopen
    · obtain ⟨data, hfs, hmap⟩ := hp.opened id uri' ((Function.update_of_ne heq ..).symm.trans hopen)
      exact ⟨data, hfs, (Function.update_of_ne heq ..).trans hmap⟩

/-- A read changes the counter of bytes only. -/
theorem read_state (h : p.read fs handle offset size dst = .ok (bytes, p')) :
    p' = { p with bytesRead := wrap64 (p.bytesRead + size) } := by
  unfold read at h
  split at h
  · exact absurd h (fail_ne_ok _ _ _)
  · obtain ⟨_, -, h₂⟩ := bind_ok h
    cases h₂
    rfl

theorem Reachable.wf (h : Reachable fs preferMmap p) : p.Wf fs preferMmap := by
  induction h with
  | init => exact init_wf
  | open_ _ hopen ih => exact open_wf ih hopen
  | close handle _ ih => exact close_wf ih handle
  | read _ hread ih =>
    rw [read_state hread]
    exact ⟨ih.prefer, ih.fresh, ih.opened⟩
  | resetStats _ ih => exact ⟨ih.prefer, ih.fresh, ih.opened⟩

/-- A handle that `open` gave names an open path. -/
theorem open_paths (h : p.open_ fs sys uri out = .ok (handle, p')) : p'.paths handle.id = some uri := by
  obtain ⟨hid, -, -, data, -, -, rfl⟩ := open_ok h
  rw [hid]
  exact Function.update_self ..

/-! ## One read -/

theorem read_refused (h : dst = false ∨ size = 0) :
    p.read fs handle offset size dst = fail .invalidArgument "read dst/size invalid" := if_pos h

theorem read_eq (h : ¬(dst = false ∨ size = 0)) :
    p.read fs handle offset size dst =
      p.readEither fs handle offset size >>= fun bytes => .ok (bytes, { p with bytesRead := wrap64 (p.bytesRead + size) }) := by
  rw [read, if_neg h]

variable {base : Nat}

theorem readEither_mapped (hp : p.Wf fs true) (hopen : p.paths handle.id = some uri) (hfs : fs uri = some data) :
    p.readEither fs { handle with offset := base } offset size =
      readMapped ⟨uri, data⟩ { handle with offset := base } offset size := by
  obtain ⟨data', hfs', hmap⟩ := hp.opened _ _ hopen
  cases hfs.symm.trans hfs'
  simp [readEither, hmap, mapOf]

theorem readEither_buffered (hp : p.Wf fs false) (hopen : p.paths handle.id = some uri) :
    p.readEither fs { handle with offset := base } offset size = readBuffered fs uri { handle with offset := base } offset size := by
  obtain ⟨data', -, hmap⟩ := hp.opened _ _ hopen
  simp [readEither, hmap, mapOf, hopen]

theorem toI64_neg_iff (n : Nat) : toI64 n < 0 ↔ 2 ^ 63 ≤ wrap64 n := by
  have hlt : wrap64 n < 2 ^ 64 := Nat.mod_lt _ (Nat.two_pow_pos 64)
  unfold toI64
  split <;> omega

/-- The sum refuses, the copy leaves the mapping, or the bytes arrive. -/
theorem readMapped_cases (uri : String) (data : List UInt8) (handle : TensorHandle) (offset size : Nat) :
    (data.length < wrap64 (offset + size) ∧ readMapped ⟨uri, data⟩ handle offset size = fail .invalidArgument "mmap read OOB") ∨
    (wrap64 (offset + size) ≤ data.length ∧ data.length < wrap64 (handle.offset + offset) + size ∧
      readMapped ⟨uri, data⟩ handle offset size = .error (.undefined "read past the mapping")) ∨
    (wrap64 (offset + size) ≤ data.length ∧ wrap64 (handle.offset + offset) + size ≤ data.length ∧
      readMapped ⟨uri, data⟩ handle offset size = .ok ((data.drop (wrap64 (handle.offset + offset))).take size)) := by
  unfold readMapped MappedFile.size
  dsimp only
  by_cases hsum : data.length < wrap64 (offset + size)
  · exact .inl ⟨hsum, if_pos hsum⟩
  · rw [if_neg hsum]
    by_cases hpast : data.length < wrap64 (handle.offset + offset) + size
    · exact .inr (.inl ⟨Nat.le_of_not_lt hsum, hpast, if_pos hpast⟩)
    · exact .inr (.inr ⟨Nat.le_of_not_lt hsum, Nat.le_of_not_lt hpast, if_neg hpast⟩)

/-- The position or the length refuses, or the bytes arrive. -/
theorem readBuffered_cases (hfs : fs uri = some data) (hsize : size ≠ 0) (handle : TensorHandle) (offset : Nat) :
    ((2 ^ 63 ≤ wrap64 (handle.offset + offset) ∨ data.length < wrap64 (handle.offset + offset) + size) ∧
      ∃ message, readBuffered fs uri handle offset size = fail .ioError message) ∨
    (wrap64 (handle.offset + offset) < 2 ^ 63 ∧ wrap64 (handle.offset + offset) + size ≤ data.length ∧
      readBuffered fs uri handle offset size = .ok ((data.drop (wrap64 (handle.offset + offset))).take size)) := by
  simp only [readBuffered, hfs, toI64_neg_iff, List.length_take, List.length_drop]
  by_cases hneg : 2 ^ 63 ≤ wrap64 (handle.offset + offset)
  · exact .inl ⟨.inl hneg, _, if_pos hneg⟩
  · rw [if_neg hneg]
    by_cases hshort : data.length < wrap64 (handle.offset + offset) + size
    · exact .inl ⟨.inr hshort, _, if_pos (by omega)⟩
    · exact .inr ⟨by omega, by omega, if_neg (by omega)⟩

/-! ## Both paths -/

/-- A call that passes read `[first, first + size)` of the file, which lies inside it. -/
def ReadsExactly (data : List UInt8) (first size : Nat) (r : Result (List UInt8 × FileStorageProvider)) : Prop :=
  Passed r → first + size ≤ data.length ∧ ∃ p, r = .ok ((data.drop first).take size, p)

/-- Both calls give the same bytes, or both an error. -/
def SameOutcome (r r' : Result (List UInt8 × FileStorageProvider)) : Prop :=
  (∃ bytes p p', r = .ok (bytes, p) ∧ r' = .ok (bytes, p')) ∨ (Failed r ∧ Failed r')

/-- The bytes or the `Error`, its code and message included. -/
def answer (r : Result (List UInt8 × FileStorageProvider)) : Result (List UInt8) := r.map Prod.fst

/-- The mapped path's sum and the buffered path's position or length both refuse. -/
def BothRefuse (length base offset size : Nat) : Prop :=
  length < wrap64 (offset + size) ∧ (2 ^ 63 ≤ wrap64 (base + offset) ∨ length < wrap64 (base + offset) + size)

theorem readsExactly_of_failed {first : Nat} {r : Result (List UInt8 × FileStorageProvider)} (h : Failed r) :
    ReadsExactly data first size r := by
  obtain ⟨code, message, rfl⟩ := h
  exact fun hpass => absurd hpass fail_not_passed

variable {m b : FileStorageProvider} {x y : TensorHandle}

/-- What one call should do, on a mapped and on a buffered provider. -/
def Sound (fs : FileSystem) (m b : FileStorageProvider) (x y : TensorHandle) (data : List UInt8) (base offset size : Nat)
    (dst : Bool) : Prop :=
  ReadsExactly data (base + offset) size (m.read fs { x with offset := base } offset size dst) ∧
    ReadsExactly data (base + offset) size (b.read fs { y with offset := base } offset size dst) ∧
    SameOutcome (m.read fs { x with offset := base } offset size dst) (b.read fs { y with offset := base } offset size dst)

/-- The calls agree in their errors too. -/
def SameAnswer (fs : FileSystem) (m b : FileStorageProvider) (x y : TensorHandle) (base offset size : Nat) (dst : Bool) : Prop :=
  answer (m.read fs { x with offset := base } offset size dst) = answer (b.read fs { y with offset := base } offset size dst)

theorem sound_of_refused (h : dst = false ∨ size = 0) :
    Sound fs m b x y data base offset size dst ∧ SameAnswer fs m b x y base offset size dst := by
  have hfailed : ∀ (p : FileStorageProvider) (z : TensorHandle), Failed (p.read fs z offset size dst) :=
    fun p z => ⟨_, _, read_refused h⟩
  refine ⟨⟨readsExactly_of_failed (hfailed ..), readsExactly_of_failed (hfailed ..), .inr ⟨hfailed .., hfailed ..⟩⟩, ?_⟩
  rw [SameAnswer, read_refused h, read_refused h]

/-- A range inside the file: neither sum wraps, and both paths copy it. -/
theorem inside_read (hlen : data.length < 2 ^ 63) (hm : m.Wf fs true) (hb : b.Wf fs false)
    (hx : m.paths x.id = some uri) (hy : b.paths y.id = some uri) (hfs : fs uri = some data)
    (hsize : size ≠ 0) (hin : base + offset + size ≤ data.length) :
    m.readEither fs { x with offset := base } offset size = .ok ((data.drop (base + offset)).take size) ∧
      b.readEither fs { y with offset := base } offset size = .ok ((data.drop (base + offset)).take size) := by
  have hsum : wrap64 (offset + size) = offset + size := wrap64_of_lt (by omega)
  have hpos : wrap64 (base + offset) = base + offset := wrap64_of_lt (by omega)
  constructor
  · rw [readEither_mapped hm hx hfs]
    rcases readMapped_cases uri data { x with offset := base } offset size with ⟨h, -⟩ | ⟨-, h, -⟩ | ⟨-, -, h⟩
    · omega
    · dsimp only at h
      omega
    · rw [h, hpos]
  · rw [readEither_buffered hb hy]
    rcases readBuffered_cases hfs hsize { y with offset := base } offset with ⟨h, -⟩ | ⟨-, -, h⟩
    · dsimp only at h
      omega
    · rw [h, hpos]

theorem sound_of_inside (hlen : data.length < 2 ^ 63) (hm : m.Wf fs true) (hb : b.Wf fs false)
    (hx : m.paths x.id = some uri) (hy : b.paths y.id = some uri) (hfs : fs uri = some data)
    (hok : ¬(dst = false ∨ size = 0)) (hin : base + offset + size ≤ data.length) :
    Sound fs m b x y data base offset size dst ∧ SameAnswer fs m b x y base offset size dst := by
  obtain ⟨hmapped, hbuffered⟩ := inside_read hlen hm hb hx hy hfs (fun h => hok (.inr h)) hin
  refine ⟨⟨fun _ => ⟨hin, ?_⟩, fun _ => ⟨hin, ?_⟩, .inl ?_⟩, ?_⟩
  · rw [read_eq hok, hmapped]
    exact ⟨_, rfl⟩
  · rw [read_eq hok, hbuffered]
    exact ⟨_, rfl⟩
  · rw [read_eq hok, read_eq hok, hmapped, hbuffered]
    exact ⟨_, _, _, rfl, rfl⟩
  · rw [SameAnswer, read_eq hok, read_eq hok, hmapped, hbuffered]
    rfl

/-- Both paths fail, with codes of their own. -/
theorem bothRefuse_fail (hm : m.Wf fs true) (hb : b.Wf fs false) (hx : m.paths x.id = some uri)
    (hy : b.paths y.id = some uri) (hfs : fs uri = some data) (hok : ¬(dst = false ∨ size = 0))
    (h : BothRefuse data.length base offset size) :
    m.read fs { x with offset := base } offset size dst = fail .invalidArgument "mmap read OOB" ∧
      ∃ message, b.read fs { y with offset := base } offset size dst = fail .ioError message := by
  rw [read_eq hok, read_eq hok, readEither_mapped hm hx hfs, readEither_buffered hb hy]
  constructor
  · rcases readMapped_cases uri data { x with offset := base } offset size with ⟨-, hr⟩ | ⟨hle, -⟩ | ⟨hle, -⟩
    · rw [hr]
      rfl
    · exact absurd h.1 (Nat.not_lt.mpr hle)
    · exact absurd h.1 (Nat.not_lt.mpr hle)
  · rcases readBuffered_cases hfs (fun h => hok (.inr h)) { y with offset := base } offset with ⟨-, message, hr⟩ | ⟨hlt, hle, -⟩
    · rw [hr]
      exact ⟨message, rfl⟩
    · have hrefuse := h.2
      dsimp only at hlt hle
      omega

theorem sound_of_bothRefuse (hm : m.Wf fs true) (hb : b.Wf fs false) (hx : m.paths x.id = some uri)
    (hy : b.paths y.id = some uri) (hfs : fs uri = some data) (hok : ¬(dst = false ∨ size = 0))
    (h : BothRefuse data.length base offset size) : Sound fs m b x y data base offset size dst := by
  obtain ⟨hmapped, message, hbuffered⟩ := bothRefuse_fail hm hb hx hy hfs hok h
  have hm' : Failed (m.read fs { x with offset := base } offset size dst) := ⟨_, _, hmapped⟩
  have hb' : Failed (b.read fs { y with offset := base } offset size dst) := ⟨_, _, hbuffered⟩
  exact ⟨readsExactly_of_failed hm', readsExactly_of_failed hb', .inr ⟨hm', hb'⟩⟩

theorem bothRefuse_answers_differ (hm : m.Wf fs true) (hb : b.Wf fs false) (hx : m.paths x.id = some uri)
    (hy : b.paths y.id = some uri) (hfs : fs uri = some data) (hok : ¬(dst = false ∨ size = 0))
    (h : BothRefuse data.length base offset size) : ¬ SameAnswer fs m b x y base offset size dst := by
  obtain ⟨hmapped, message, hbuffered⟩ := bothRefuse_fail hm hb hx hy hfs hok h
  intro hsame
  rw [SameAnswer, hmapped, hbuffered] at hsame
  cases hsame

/-- A call that passes its checks read inside the file, so the others were refused. -/
theorem bothRefuse_of_sound (hm : m.Wf fs true) (hb : b.Wf fs false) (hx : m.paths x.id = some uri)
    (hy : b.paths y.id = some uri) (hfs : fs uri = some data) (hok : ¬(dst = false ∨ size = 0))
    (hout : ¬base + offset + size ≤ data.length) (h : Sound fs m b x y data base offset size dst) :
    BothRefuse data.length base offset size := by
  obtain ⟨hmapped, hbuffered, -⟩ := h
  have hsize : size ≠ 0 := fun h => hok (.inr h)
  rw [read_eq hok, readEither_mapped hm hx hfs] at hmapped
  rw [read_eq hok, readEither_buffered hb hy] at hbuffered
  constructor
  · rcases readMapped_cases uri data { x with offset := base } offset size with ⟨hlt, -⟩ | ⟨-, -, hr⟩ | ⟨-, -, hr⟩
    · exact hlt
    · rw [hr] at hmapped
      exact absurd (hmapped (.inr ⟨_, rfl⟩)).1 hout
    · rw [hr] at hmapped
      exact absurd (hmapped (.inl ⟨_, rfl⟩)).1 hout
  · rcases readBuffered_cases hfs hsize { y with offset := base } offset with ⟨hrefuse, -⟩ | ⟨-, -, hr⟩
    · exact hrefuse
    · rw [hr] at hbuffered
      exact absurd (hbuffered (.inl ⟨_, rfl⟩)).1 hout

/-- On an open file of fewer than 2^63 bytes both paths read exactly the range or both refuse, exactly when it lies in
the file or both refuse it; the errors are the same too exactly when it lies in the file or the request is refused. -/
theorem read_exact_iff (hlen : data.length < 2 ^ 63) (hm : Reachable fs true m) (hb : Reachable fs false b)
    (hx : m.paths x.id = some uri) (hy : b.paths y.id = some uri) (hfs : fs uri = some data) (base offset size : Nat) (dst : Bool) :
    (Sound fs m b x y data base offset size dst ↔
      (dst = false ∨ size = 0) ∨ base + offset + size ≤ data.length ∨ BothRefuse data.length base offset size) ∧
    (Sound fs m b x y data base offset size dst ∧ SameAnswer fs m b x y base offset size dst ↔
      (dst = false ∨ size = 0) ∨ base + offset + size ≤ data.length) := by
  by_cases hok : dst = false ∨ size = 0
  · have hsound : Sound fs m b x y data base offset size dst ∧ SameAnswer fs m b x y base offset size dst := sound_of_refused hok
    exact ⟨iff_of_true hsound.1 (.inl hok), iff_of_true hsound (.inl hok)⟩
  · by_cases hin : base + offset + size ≤ data.length
    · have hsound := sound_of_inside hlen hm.wf hb.wf hx hy hfs hok hin
      exact ⟨iff_of_true hsound.1 (.inr (.inl hin)), iff_of_true hsound (.inr hin)⟩
    · have hrefuse := bothRefuse_of_sound hm.wf hb.wf hx hy hfs hok hin
      refine ⟨⟨fun h => .inr (.inr (hrefuse h)), ?_⟩, ⟨fun h => ?_, ?_⟩⟩
      · rintro (h | h | h)
        · exact absurd h hok
        · exact absurd h hin
        · exact sound_of_bothRefuse hm.wf hb.wf hx hy hfs hok h
      · exact absurd h.2 (bothRefuse_answers_differ hm.wf hb.wf hx hy hfs hok (hrefuse h.1))
      · rintro (h | h)
        · exact absurd h hok
        · exact absurd h hin

/-! ## A file of three bytes -/

def threeBytes : FileSystem := fun path => if path = "weights" then some [1, 2, 3] else none

def answers : Syscalls := ⟨true, true, true, true⟩

/-- The provider after it opened the file, and the handle. -/
def opened (preferMmap : Bool) : FileStorageProvider :=
  { init preferMmap with
    nextId := 2
    paths := Function.update (fun _ => none) 1 (some "weights")
    maps := if preferMmap then Function.update (fun _ => none) 1 (some ⟨"weights", [1, 2, 3]⟩) else fun _ => none }

def weightsHandle (preferMmap : Bool) : TensorHandle := ⟨1, if preferMmap then .mmap else .disk, "weights", 0, 3⟩

theorem open_weights (preferMmap : Bool) :
    (init preferMmap).open_ threeBytes answers "weights" true = .ok (weightsHandle preferMmap, opened preferMmap) := by
  cases preferMmap <;> rfl

theorem opened_reachable (preferMmap : Bool) : Reachable threeBytes preferMmap (opened preferMmap) :=
  .open_ .init (open_weights preferMmap)

theorem inner_bytes_sound :
    Sound threeBytes (opened true) (opened false) (weightsHandle true) (weightsHandle false) [1, 2, 3] 1 1 1 true :=
  (read_exact_iff (by decide) (opened_reachable true) (opened_reachable false) rfl rfl rfl 1 1 1 true).1.mpr
    (.inr (.inl (by decide)))

/-- With its handle at offset 1 a read of three bytes passes the mapped path's test, and its copy leaves the mapping. -/
theorem handle_offset_unchecked :
    Reachable threeBytes true (opened true) ∧ Reachable threeBytes false (opened false) ∧
      ¬ Sound threeBytes (opened true) (opened false) (weightsHandle true) (weightsHandle false) [1, 2, 3] 1 0 3 true := by
  refine ⟨opened_reachable true, opened_reachable false, fun h => ?_⟩
  have hpass : Passed ((opened true).read threeBytes { weightsHandle true with offset := 1 } 0 3 true) := .inr ⟨_, rfl⟩
  exact absurd (h.1 hpass).1 (by decide)

end FileStorageProvider

end Uaii.Storage
