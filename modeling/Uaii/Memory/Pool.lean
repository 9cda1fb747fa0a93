/-
  Uaii.Memory.Pool — `MemoryBudget` (`libs/uaii-memory/src/budget.cpp`) and `TensorPool`
  (`libs/uaii-memory/src/pool.cpp`).

  Freed blocks stay with the pool, by size class, and keep their budget. `malloc` is the
  environment: each call of `allocate` comes with the answer it would get. It never
  answers with a block that is out, and the blocks that are out fit in the address space
  together.

  Proved: in a run on a budget with a limit, the budget's use is the live and the cached
  bytes, within the limit, no block is out twice and every block is as large as asked,
  exactly as long as no `reserve` adds up past 2^64 to a value within the limit
  (`pool_accounted_iff`).

  As built, such a `reserve` passes; `malloc` fails, and `release` of the whole size
  brings the use of the live blocks down to 0 (`wrapped_reserve_loses_use`).
-/

import Mathlib.Data.List.Perm.Basic
import Mathlib.Data.List.Nodup
import Mathlib.Algebra.BigOperators.Group.List.Basic
import Uaii.Core.Error
import Uaii.Lib.Lists
import Uaii.Lib.Runs

namespace Uaii.Memory

/-! ## The budget -/

structure MemoryBudget where
  /-- 0 is unlimited. -/
  limit : Nat
  used : Nat
  peak : Nat
  deriving DecidableEq, Repr

namespace MemoryBudget

def ofLimit (limit : Nat) : MemoryBudget := ⟨limit, 0, 0⟩

def reserve (b : MemoryBudget) (need : Nat) : Result MemoryBudget :=
  if b.limit ≠ 0 ∧ b.limit < wrap64 (b.used + need) then
    fail .invalidArgument ("memory budget exceeded: used=" ++ Nat.repr b.used ++ " need=" ++ Nat.repr need ++ " limit=" ++
      Nat.repr b.limit)
  else .ok { b with used := wrap64 (b.used + need), peak := max b.peak (wrap64 (b.used + need)) }

def release (b : MemoryBudget) (n : Nat) : MemoryBudget := { b with used := if b.used ≤ n then 0 else b.used - n }

variable {b b' : MemoryBudget} {n : Nat}

@[simp] theorem release_limit (b : MemoryBudget) (n : Nat) : (b.release n).limit = b.limit := rfl

theorem release_used (b : MemoryBudget) (n : Nat) : (b.release n).used = b.used - n := by
  unfold release
  dsimp only
  split
  · omega
  · rfl

theorem reserve_ok (h : b.reserve n = .ok b') :
    b'.limit = b.limit ∧ b'.used = wrap64 (b.used + n) ∧ (b.limit = 0 ∨ b'.used ≤ b.limit) := by
  unfold reserve at h
  split at h
  · cases h
  · rename_i hfits
    cases h
    refine ⟨rfl, rfl, ?_⟩
    show b.limit = 0 ∨ wrap64 (b.used + n) ≤ b.limit
    omega

/-- `reserve` passes. -/
def admits (b : MemoryBudget) (n : Nat) : Bool := b.limit = 0 || wrap64 (b.used + n) ≤ b.limit

theorem reserve_of_admits (h : b.admits n = true) :
    b.reserve n = .ok { b with used := wrap64 (b.used + n), peak := max b.peak (wrap64 (b.used + n)) } := by
  rw [reserve, if_neg]
  simp only [admits, Bool.or_eq_true, decide_eq_true_eq] at h
  omega

theorem reserve_of_not_admits (h : b.admits n = false) : ∃ e, b.reserve n = .error (.error .invalidArgument e) := by
  simp only [admits, Bool.or_eq_false_iff, decide_eq_false_iff_not] at h
  rw [reserve, if_pos (by omega)]
  exact ⟨_, rfl⟩

theorem reserve_error {e : Fault} (h : b.reserve n = .error e) : b.limit < wrap64 (b.used + n) := by
  unfold reserve at h
  split at h
  · rename_i hover
    exact hover.2
  · cases h

end MemoryBudget

/-! ## Size classes -/

/-- The loop of `round_up_size`. -/
def roundUpLoop (bytes : Nat) : Nat → Nat → Nat
  | 0, n => n
  | fuel + 1, n => if n < bytes then (if 2 ^ 30 < n then bytes else roundUpLoop bytes fuel (n * 2)) else n

def roundUpSize (bytes : Nat) : Nat := roundUpLoop bytes 26 64

theorem roundUpLoop_le {bytes : Nat} : ∀ {fuel n : Nat}, 2 ^ 31 ≤ n * 2 ^ fuel → bytes ≤ roundUpLoop bytes (fuel + 1) n := by
  intro fuel
  induction fuel with
  | zero =>
    intro n hn
    simp only [roundUpLoop]
    split
    · split <;> omega
    · omega
  | succ fuel ih =>
    intro n hn
    rw [roundUpLoop]
    split
    · split
      · omega
      · apply ih
        rw [Nat.pow_succ] at hn
        calc 2 ^ 31 ≤ n * (2 ^ fuel * 2) := hn
          _ = n * 2 * 2 ^ fuel := by rw [Nat.mul_comm (2 ^ fuel) 2, Nat.mul_assoc]
    · omega

/-- A class is as large as what it is for. -/
theorem le_roundUpSize (bytes : Nat) : bytes ≤ roundUpSize bytes := roundUpLoop_le (by decide)

theorem roundUpLoop_lt {bytes m : Nat} (hb : bytes < m) (hm : 2 ^ 31 < m) : ∀ {fuel n : Nat}, n ≤ 2 ^ 31 →
    roundUpLoop bytes fuel n < m := by
  intro fuel
  induction fuel with
  | zero =>
    intro n hn
    rw [roundUpLoop]
    omega
  | succ fuel ih =>
    intro n hn
    rw [roundUpLoop]
    split
    · split
      · exact hb
      · exact ih (by omega)
    · omega

theorem roundUpSize_lt {bytes : Nat} (h : bytes < 2 ^ 64) : roundUpSize bytes < 2 ^ 64 :=
  roundUpLoop_lt h (by decide) (by decide)

/-! ## The pool -/

/-- A block from `malloc`. -/
structure Piece where
  ptr : Nat
  size : Nat
  deriving DecidableEq, Repr

def sizeOf (ps : List Piece) : Nat := (ps.map (·.size)).sum

@[simp] theorem sizeOf_nil : sizeOf [] = 0 := rfl

@[simp] theorem sizeOf_cons (p : Piece) (ps : List Piece) : sizeOf (p :: ps) = p.size + sizeOf ps := by simp [sizeOf]

@[simp] theorem sizeOf_append (ps qs : List Piece) : sizeOf (ps ++ qs) = sizeOf ps + sizeOf qs := by simp [sizeOf]

theorem sizeOf_perm {ps qs : List Piece} (h : ps.Perm qs) : sizeOf ps = sizeOf qs := (h.map _).sum_eq

structure TensorPool where
  budget : MemoryBudget
  /-- `free_lists_`, all classes in one list, the last freed first. -/
  cached : List Piece
  live : List Piece
  liveBytes : Nat
  cachedBytes : Nat
  /-- What `malloc` has given and `free` has not taken back. -/
  heap : List Piece
  deriving DecidableEq, Repr

/-- `a -= b` on a `size_t`. -/
def sub64 (a b : Nat) : Nat := wrap64 (a + 2 ^ 64 - b)

theorem sub64_of_le {a b : Nat} (h : b ≤ a) (ha : a < 2 ^ 64) : sub64 a b = a - b := by
  unfold sub64 wrap64
  omega

namespace TensorPool

def ofLimit (limit : Nat) : TensorPool := ⟨.ofLimit limit, [], [], 0, 0, []⟩

/-- `live_[ptr] = rounded`. -/
def handOut (s : TensorPool) (p : Piece) : TensorPool :=
  { s with live := p :: s.live.filter (·.ptr != p.ptr), liveBytes := wrap64 (s.liveBytes + p.size) }

def allocate (s : TensorPool) (bytes : Nat) (malloc : Option Nat) : Result Nat × TensorPool :=
  if bytes = 0 then (fail .invalidArgument "pool allocate invalid args", s)
  else
    let rounded := roundUpSize bytes
    match s.cached.find? (·.size == rounded) with
    | some p =>
      (.ok p.ptr, { s with cached := s.cached.erase p, cachedBytes := sub64 s.cachedBytes rounded }.handOut p)
    | none =>
      match s.budget.reserve rounded with
      | .error e => (.error e, s)
      | .ok budget =>
        match malloc with
        | none => (fail .ioError "malloc failed", { s with budget := budget.release rounded })
        | some ptr => (.ok ptr, { s with budget := budget, heap := ⟨ptr, rounded⟩ :: s.heap }.handOut ⟨ptr, rounded⟩)

def deallocate (s : TensorPool) (ptr : Nat) : TensorPool :=
  match s.live.find? (·.ptr == ptr) with
  | none => s
  | some p =>
    { s with
      live := s.live.filter (·.ptr != ptr)
      liveBytes := sub64 s.liveBytes p.size
      cached := p :: s.cached
      cachedBytes := wrap64 (s.cachedBytes + p.size) }

/-- `std::free` of every block, and `release` of its size. -/
def freeAll (ps : List Piece) (s : TensorPool) : TensorPool :=
  ps.foldl (fun s p => { s with budget := s.budget.release p.size, heap := s.heap.erase p }) s

def clear (s : TensorPool) : TensorPool :=
  { (s.freeAll s.live).freeAll s.cached with live := [], liveBytes := 0, cached := [], cachedBytes := 0 }

inductive Op where
  | allocate (bytes : Nat) (malloc : Option Nat)
  | deallocate (ptr : Nat)
  | clear
  deriving DecidableEq, Repr

def step (s : TensorPool) : Op → TensorPool
  | .allocate bytes malloc => (s.allocate bytes malloc).2
  | .deallocate ptr => s.deallocate ptr
  | .clear => s.clear

/-- A 64-bit size, and an answer `malloc` can give: a block that is not out, and that
    fits in the address space beside those that are. -/
def Allowed (s : TensorPool) : Op → Prop
  | .allocate bytes malloc =>
    bytes < 2 ^ 64 ∧ ∀ ptr ∈ malloc, ptr ∉ s.heap.map (·.ptr) ∧ sizeOf s.heap + roundUpSize bytes < 2 ^ 64
  | _ => True

/-! ## Accounting -/

/-- The books of the pool and its budget. -/
structure Accounted (s : TensorPool) : Prop where
  live : s.liveBytes = sizeOf s.live
  cached : s.cachedBytes = sizeOf s.cached
  used : s.budget.used = s.liveBytes + s.cachedBytes
  within : s.budget.used ≤ s.budget.limit
  /-- No block is out twice. -/
  once : ((s.live ++ s.cached).map (·.ptr)).Nodup

/-- A block that is handed out was not out, and is as large as asked. -/
def Serves (s : TensorPool) : Op → Prop
  | .allocate bytes malloc => ∀ ptr, (s.allocate bytes malloc).1 = .ok ptr →
    ptr ∉ s.live.map (·.ptr) ∧ ∃ p ∈ (s.allocate bytes malloc).2.heap, p.ptr = ptr ∧ bytes ≤ p.size
  | _ => True

/-- `reserve`, if it is called, does not add up past 2^64 to a value within the limit. -/
def NoWrap (s : TensorPool) : Op → Prop
  | .allocate bytes _ => bytes = 0 ∨ (∃ p ∈ s.cached, p.size = roundUpSize bytes) ∨
    s.budget.used + roundUpSize bytes < 2 ^ 64 ∨ s.budget.limit < wrap64 (s.budget.used + roundUpSize bytes)
  | _ => True

/-! ## One call -/

/-- The blocks that are out are the live ones and the cached ones, and the counters count
    them. -/
structure Wf (s : TensorPool) : Prop where
  pieces : (s.live ++ s.cached).Perm s.heap
  nodup : (s.heap.map (·.ptr)).Nodup
  live : s.liveBytes = sizeOf s.live
  cached : s.cachedBytes = sizeOf s.cached
  used : s.budget.used = sizeOf s.live + sizeOf s.cached
  within : s.budget.used ≤ s.budget.limit
  limited : s.budget.limit ≠ 0
  limit_lt : s.budget.limit < 2 ^ 64

variable {s : TensorPool} {bytes ptr : Nat} {malloc : Option Nat}

theorem ofLimit_wf {limit : Nat} (hpos : limit ≠ 0) (hlt : limit < 2 ^ 64) : (ofLimit limit).Wf :=
  ⟨List.Perm.refl _, List.nodup_nil, rfl, rfl, rfl, Nat.zero_le _, hpos, hlt⟩

theorem Wf.once (h : s.Wf) : ((s.live ++ s.cached).map (·.ptr)).Nodup := (h.pieces.map _).nodup_iff.mpr h.nodup

theorem Wf.accounted (h : s.Wf) : s.Accounted where
  live := h.live
  cached := h.cached
  used := by rw [h.used, h.live, h.cached]
  within := h.within
  once := h.once

theorem Wf.heap_bytes (h : s.Wf) : sizeOf s.heap = s.budget.used := by
  rw [← sizeOf_perm h.pieces, sizeOf_append, h.used]

/-- A block that was not live is handed out. -/
theorem handOut_wf {p : Piece} (hnew : p.ptr ∉ s.live.map (·.ptr)) (hpieces : (p :: s.live ++ s.cached).Perm s.heap)
    (hnodup : (s.heap.map (·.ptr)).Nodup) (hlive : s.liveBytes = sizeOf s.live) (hcached : s.cachedBytes = sizeOf s.cached)
    (hused : s.budget.used = p.size + sizeOf s.live + sizeOf s.cached) (hwithin : s.budget.used ≤ s.budget.limit)
    (hlimited : s.budget.limit ≠ 0) (hlt : s.budget.limit < 2 ^ 64) : (s.handOut p).Wf := by
  have hself : s.live.filter (·.ptr != p.ptr) = s.live := by
    refine List.filter_eq_self.mpr fun q hq => ?_
    have hne : q.ptr ≠ p.ptr := fun he => hnew (he ▸ List.mem_map_of_mem hq)
    simpa using hne
  rw [handOut, hself]
  refine ⟨hpieces, hnodup, ?_, hcached, ?_, hwithin, hlimited, hlt⟩
  · show wrap64 (s.liveBytes + p.size) = sizeOf (p :: s.live)
    rw [sizeOf_cons, wrap64_of_lt (by omega)]
    omega
  · show s.budget.used = sizeOf (p :: s.live) + sizeOf s.cached
    rw [sizeOf_cons, hused]

/-- What one `allocate` can do. -/
theorem allocate_cases (s : TensorPool) (bytes : Nat) (malloc : Option Nat) :
    ((bytes = 0 ∨ ∃ e, s.budget.reserve (roundUpSize bytes) = .error e) ∧ (s.allocate bytes malloc).2 = s ∧
      (∀ ptr, (s.allocate bytes malloc).1 ≠ .ok ptr)) ∨
    (∃ p ∈ s.cached, p.size = roundUpSize bytes ∧ s.allocate bytes malloc = (.ok p.ptr,
      { s with cached := s.cached.erase p, cachedBytes := sub64 s.cachedBytes p.size }.handOut p)) ∨
    (∃ budget, (¬ ∃ p ∈ s.cached, p.size = roundUpSize bytes) ∧ bytes ≠ 0 ∧
      s.budget.reserve (roundUpSize bytes) = .ok budget ∧
      ((malloc = none ∧ (∀ ptr, (s.allocate bytes malloc).1 ≠ .ok ptr) ∧
          (s.allocate bytes malloc).2 = { s with budget := budget.release (roundUpSize bytes) }) ∨
        ∃ ptr, malloc = some ptr ∧ s.allocate bytes malloc = (.ok ptr,
          { s with budget := budget, heap := ⟨ptr, roundUpSize bytes⟩ :: s.heap }.handOut ⟨ptr, roundUpSize bytes⟩))) := by
  unfold allocate
  by_cases hb : bytes = 0
  · left
    simp [hb]
  rw [if_neg hb]
  dsimp only
  cases hfind : s.cached.find? (·.size == roundUpSize bytes) with
  | some p =>
    have hsize : p.size = roundUpSize bytes := by simpa using List.find?_some hfind
    exact .inr (.inl ⟨p, List.mem_of_find?_eq_some hfind, hsize, by simp only [hsize]⟩)
  | none =>
    have hnone : ¬ ∃ p ∈ s.cached, p.size = roundUpSize bytes := by
      rintro ⟨p, hp, hsize⟩
      have hno := List.find?_eq_none.mp hfind p hp
      simp [hsize] at hno
    cases hres : s.budget.reserve (roundUpSize bytes) with
    | error e => exact .inl ⟨.inr ⟨e, rfl⟩, rfl, fun _ he => by simp at he⟩
    | ok budget =>
      cases malloc with
      | none => exact .inr (.inr ⟨budget, hnone, hb, rfl, .inl ⟨rfl, fun _ => fail_ne_ok _ _ _, rfl⟩⟩)
      | some ptr => exact .inr (.inr ⟨budget, hnone, hb, rfl, .inr ⟨ptr, rfl, rfl⟩⟩)

theorem reuse_wf (h : s.Wf) {p : Piece} (hp : p ∈ s.cached) :
    p.ptr ∉ s.live.map (·.ptr) ∧
      ({ s with cached := s.cached.erase p, cachedBytes := sub64 s.cachedBytes p.size }.handOut p).Wf := by
  have hperm : s.cached.Perm (p :: s.cached.erase p) := List.perm_cons_erase hp
  have hbytes : sizeOf s.cached = p.size + sizeOf (s.cached.erase p) := by rw [sizeOf_perm hperm, sizeOf_cons]
  have hfresh : p.ptr ∉ s.live.map (·.ptr) := by
    have honce := h.once
    rw [List.map_append, List.nodup_append] at honce
    exact fun hmem => honce.2.2 _ hmem _ (List.mem_map_of_mem hp) rfl
  have hcached := h.cached
  have hused := h.used
  have hwithin := h.within
  have hlimit := h.limit_lt
  refine ⟨hfresh, handOut_wf hfresh ?_ h.nodup h.live ?_ ?_ h.within h.limited h.limit_lt⟩
  · calc (p :: s.live ++ s.cached.erase p).Perm (s.live ++ p :: s.cached.erase p) := List.perm_middle.symm
      _ |>.Perm (s.live ++ s.cached) := List.Perm.append_left _ hperm.symm
      _ |>.Perm s.heap := h.pieces
  · show sub64 s.cachedBytes p.size = sizeOf (s.cached.erase p)
    rw [sub64_of_le (by omega) (by omega)]
    omega
  · show s.budget.used = p.size + sizeOf s.live + sizeOf (s.cached.erase p)
    omega

theorem fresh_wf (h : s.Wf) {n : Nat} {budget : MemoryBudget} (hres : s.budget.reserve n = .ok budget)
    (hfresh : ptr ∉ s.heap.map (·.ptr)) (hroom : sizeOf s.heap + n < 2 ^ 64) :
    ptr ∉ s.live.map (·.ptr) ∧
      ({ s with budget := budget, heap := ⟨ptr, n⟩ :: s.heap }.handOut ⟨ptr, n⟩).Wf := by
  have hnew : ptr ∉ s.live.map (·.ptr) := by
    intro hmem
    obtain ⟨p, hp, he⟩ := List.mem_map.mp hmem
    exact hfresh (List.mem_map.mpr ⟨p, h.pieces.subset (List.mem_append_left _ hp), he⟩)
  obtain ⟨hlim, hsum, hfits⟩ := MemoryBudget.reserve_ok hres
  have hheap := h.heap_bytes
  have hused := h.used
  have hpos := h.limited
  have hlt := h.limit_lt
  rw [wrap64_of_lt (by omega)] at hsum
  refine ⟨hnew, handOut_wf hnew (h.pieces.cons _) (List.nodup_cons.mpr ⟨hfresh, h.nodup⟩) h.live h.cached ?_ ?_ ?_ ?_⟩
  · show budget.used = n + sizeOf s.live + sizeOf s.cached
    omega
  · show budget.used ≤ budget.limit
    omega
  · show budget.limit ≠ 0
    omega
  · show budget.limit < 2 ^ 64
    omega

/-- A reservation that is given back leaves the budget's use. -/
theorem refused_wf (h : s.Wf) {n : Nat} {budget : MemoryBudget} (hres : s.budget.reserve n = .ok budget)
    (hsum : s.budget.used + n < 2 ^ 64) : ({ s with budget := budget.release n } : TensorPool).Wf := by
  obtain ⟨hlim, hused, -⟩ := MemoryBudget.reserve_ok hres
  rw [wrap64_of_lt hsum] at hused
  have hsame : (budget.release n).used = s.budget.used := by
    rw [MemoryBudget.release_used, hused]
    omega
  refine ⟨h.pieces, h.nodup, h.live, h.cached, ?_, ?_, ?_, ?_⟩
  · exact hsame.trans h.used
  · show (budget.release n).used ≤ budget.limit
    rw [hsame, hlim]
    exact h.within
  · exact hlim ▸ h.limited
  · exact hlim ▸ h.limit_lt

theorem allocate_wf (h : s.Wf) (ha : s.Allowed (.allocate bytes malloc)) (hw : s.NoWrap (.allocate bytes malloc)) :
    s.Serves (.allocate bytes malloc) ∧ (s.allocate bytes malloc).2.Wf := by
  obtain ⟨-, hmalloc⟩ := ha
  have hle := le_roundUpSize bytes
  rcases allocate_cases s bytes malloc with ⟨-, hsame, hno⟩ | ⟨p, hp, hsize, heq⟩ | ⟨budget, hnone, hb, hres, hcase⟩
  · exact ⟨fun ptr hok => absurd hok (hno ptr), by rw [hsame]; exact h⟩
  · obtain ⟨hnew, hwf⟩ := reuse_wf h hp
    refine ⟨fun ptr hok => ?_, by rw [heq]; exact hwf⟩
    rw [heq] at hok ⊢
    cases hok
    exact ⟨hnew, p, h.pieces.subset (List.mem_append_right _ hp), rfl, by omega⟩
  · obtain ⟨-, hsum, hfits⟩ := MemoryBudget.reserve_ok hres
    rcases hcase with ⟨rfl, hno, heq⟩ | ⟨ptr, rfl, heq⟩
    · refine ⟨fun ptr hok => absurd hok (hno ptr), heq ▸ refused_wf h hres ?_⟩
      have hpos := h.limited
      obtain ⟨hlim, -, -⟩ := MemoryBudget.reserve_ok hres
      rcases hw with hzero | hsome | hlt | hover
      · exact absurd hzero hb
      · exact absurd hsome hnone
      · exact hlt
      · omega
    · obtain ⟨hfresh, hroom⟩ := hmalloc ptr rfl
      obtain ⟨hnew, hwf⟩ := fresh_wf h hres hfresh hroom
      refine ⟨fun ptr' hok => ?_, by rw [heq]; exact hwf⟩
      rw [heq] at hok ⊢
      cases hok
      exact ⟨hnew, ⟨ptr, roundUpSize bytes⟩, List.mem_cons_self, rfl, hle⟩


theorem deallocate_wf (h : s.Wf) (ptr : Nat) : (s.deallocate ptr).Wf := by
  unfold deallocate
  cases hfind : s.live.find? (·.ptr == ptr) with
  | none => exact h
  | some p =>
    have hp : p ∈ s.live := List.mem_of_find?_eq_some hfind
    obtain rfl : p.ptr = ptr := by simpa using List.find?_some hfind
    have hnodup : (s.live.map (·.ptr)).Nodup := by
      have honce := h.once
      rw [List.map_append] at honce
      exact honce.of_append_left
    have hperm : s.live.Perm (p :: s.live.filter (·.ptr != p.ptr)) := by
      have hsplit := (List.filter_append_perm (·.ptr == p.ptr) s.live).symm
      rwa [Lists.filter_of_nodup hnodup hp, List.singleton_append] at hsplit
    have hbytes : sizeOf s.live = p.size + sizeOf (s.live.filter (·.ptr != p.ptr)) := by
      rw [sizeOf_perm hperm, sizeOf_cons]
    have hlive := h.live
    have hcached := h.cached
    have hused := h.used
    have hwithin := h.within
    have hlimit := h.limit_lt
    refine ⟨?_, h.nodup, ?_, ?_, ?_, h.within, h.limited, h.limit_lt⟩
    · calc (s.live.filter (·.ptr != p.ptr) ++ p :: s.cached).Perm (p :: s.live.filter (·.ptr != p.ptr) ++ s.cached) :=
            List.perm_middle
        _ |>.Perm (s.live ++ s.cached) := List.Perm.append_right _ hperm.symm
        _ |>.Perm s.heap := h.pieces
    · show sub64 s.liveBytes p.size = sizeOf (s.live.filter (·.ptr != p.ptr))
      rw [sub64_of_le (by omega) (by omega)]
      omega
    · show wrap64 (s.cachedBytes + p.size) = sizeOf (p :: s.cached)
      rw [sizeOf_cons, wrap64_of_lt (by omega)]
      omega
    · show s.budget.used = sizeOf (s.live.filter (·.ptr != p.ptr)) + sizeOf (p :: s.cached)
      rw [sizeOf_cons]
      omega

/-- Freeing `ps` leaves the rest of the heap, and the rest of the budget's use. -/
theorem freeAll_spec {qs : List Piece} : ∀ (ps : List Piece) {s : TensorPool}, (ps ++ qs).Perm s.heap →
    qs.Perm (s.freeAll ps).heap ∧ (s.freeAll ps).budget.limit = s.budget.limit ∧
      (s.freeAll ps).budget.used = s.budget.used - sizeOf ps := by
  intro ps
  induction ps with
  | nil => intro s h; exact ⟨h, rfl, rfl⟩
  | cons p ps ih =>
    intro s h
    have hrest : (ps ++ qs).Perm (s.heap.erase p) := by
      have herase := h.erase p
      rwa [List.cons_append, List.erase_cons_head] at herase
    obtain ⟨hheap, hlimit, hused⟩ :=
      ih (s := { s with budget := s.budget.release p.size, heap := s.heap.erase p }) hrest
    refine ⟨hheap, hlimit, ?_⟩
    show (freeAll ps _).budget.used = _
    rw [hused, MemoryBudget.release_used, sizeOf_cons]
    omega

theorem clear_wf (h : s.Wf) : s.clear.Wf := by
  obtain ⟨hheap, hlimit, hused⟩ := freeAll_spec s.live h.pieces
  rw [← List.append_nil s.cached] at hheap
  obtain ⟨hheap', hlimit', hused'⟩ := freeAll_spec s.cached hheap
  have hzero : s.clear.budget.used = 0 := by
    show ((s.freeAll s.live).freeAll s.cached).budget.used = 0
    have hsum := h.used
    omega
  have hlim : s.clear.budget.limit = s.budget.limit := hlimit'.trans hlimit
  have hempty : s.clear.heap = [] := List.nil_perm.mp hheap'
  refine ⟨?_, ?_, rfl, rfl, hzero, ?_, ?_, ?_⟩
  · rw [hempty]
    exact List.Perm.refl _
  · rw [hempty]
    exact List.nodup_nil
  · rw [hzero]
    exact Nat.zero_le _
  · rw [hlim]
    exact h.limited
  · rw [hlim]
    exact h.limit_lt

theorem step_wf (h : s.Wf) {o : Op} (ha : s.Allowed o) (hw : s.NoWrap o) : s.Serves o ∧ (s.step o).Wf := by
  cases o with
  | allocate bytes malloc => exact allocate_wf h ha hw
  | deallocate ptr => exact ⟨trivial, deallocate_wf h ptr⟩
  | clear => exact ⟨trivial, clear_wf h⟩

/-! ## Runs -/

/-- A `reserve` that wraps is given back over the use of all blocks. -/
theorem wrap_not_accounted (h : s.Wf) {o : Op} (ha : s.Allowed o) (hw : ¬ s.NoWrap o) : ¬ (s.step o).Accounted := by
  cases o with
  | deallocate ptr => exact absurd trivial hw
  | clear => exact absurd trivial hw
  | allocate bytes malloc =>
    obtain ⟨hbytes, hmalloc⟩ := ha
    obtain ⟨hb, hnone, hsum, hfits⟩ : bytes ≠ 0 ∧ (¬ ∃ p ∈ s.cached, p.size = roundUpSize bytes) ∧
        2 ^ 64 ≤ s.budget.used + roundUpSize bytes ∧ wrap64 (s.budget.used + roundUpSize bytes) ≤ s.budget.limit := by
      simp only [NoWrap, not_or, Nat.not_lt] at hw
      exact hw
    have hlt := roundUpSize_lt hbytes
    have hheap := h.heap_bytes
    have hwithin := h.within
    have hlimit := h.limit_lt
    rcases allocate_cases s bytes malloc with ⟨hno, -⟩ | ⟨p, hp, hsize, -⟩ | ⟨budget, -, -, hres, hcase⟩
    · rcases hno with hzero | ⟨e, he⟩
      · exact absurd hzero hb
      · have hover := MemoryBudget.reserve_error he
        omega
    · exact absurd ⟨p, hp, hsize⟩ hnone
    · obtain ⟨-, hused, -⟩ := MemoryBudget.reserve_ok hres
      rcases hcase with ⟨-, -, heq⟩ | ⟨ptr, rfl, -⟩
      · intro hacc
        have hbooks := hacc.used
        have hlive := hacc.live
        have hcached := hacc.cached
        simp only [step, heq, MemoryBudget.release_used, hused] at hbooks hlive hcached
        have htotal := h.used
        unfold wrap64 at hbooks
        omega
      · obtain ⟨-, hroom⟩ := hmalloc ptr rfl
        omega

/-- The books are right in every state of a run, and every call serves, exactly when no
    `reserve` of the run wraps to a value within the limit. -/
theorem pool_accounted_iff {limit : Nat} (hpos : limit ≠ 0) (hlt : limit < 2 ^ 64) {ops : List Op}
    (ha : Runs.Along step Allowed (ofLimit limit) ops) :
    Runs.Throughout step Accounted Serves (ofLimit limit) ops ↔ Runs.Along step NoWrap (ofLimit limit) ops :=
  Runs.throughout_iff (fun _ => Wf.accounted) (fun _ _ h => step_wf h)
    (fun _ _ h ha _ hacc => by_contra fun hw => wrap_not_accounted h ha hw hacc) (ofLimit_wf hpos hlt) ha

/-- One block of 64 bytes. -/
def oneBlock : TensorPool := (ofLimit 4096).step (.allocate 10 (some 1))

theorem one_block_accounted :
    Runs.Throughout step Accounted Serves (ofLimit 4096) [.allocate 10 (some 1), .deallocate 1] ↔
      Runs.Along step NoWrap (ofLimit 4096) [.allocate 10 (some 1), .deallocate 1] := by
  have hfirst : (ofLimit 4096).Allowed (.allocate 10 (some 1)) :=
    ⟨by decide, fun ptr _ => ⟨by simp [ofLimit], by decide⟩⟩
  exact pool_accounted_iff (by decide) (by decide) ⟨hfirst, trivial, trivial⟩

/-- With 64 bytes in use, 2^64 - 64 more add up to 0: the reservation passes, `malloc`
    fails, and giving it back leaves a use of 0 with the block still live. -/
theorem wrapped_reserve_loses_use :
    Runs.Along step Allowed (ofLimit 4096) [.allocate 10 (some 1), .allocate (2 ^ 64 - 64) none] ∧
    ¬ Runs.Throughout step Accounted Serves (ofLimit 4096) [.allocate 10 (some 1), .allocate (2 ^ 64 - 64) none] ∧
      (oneBlock.step (.allocate (2 ^ 64 - 64) none)).budget.used = 0 ∧
      (oneBlock.step (.allocate (2 ^ 64 - 64) none)).live = [⟨1, 64⟩] := by
  have hfirst : (ofLimit 4096).Allowed (.allocate 10 (some 1)) :=
    ⟨by decide, fun ptr _ => ⟨by simp [ofLimit], by decide⟩⟩
  refine ⟨⟨hfirst, ⟨by decide, fun ptr hp => by cases hp⟩, trivial⟩, fun h => ?_, by decide, by decide⟩
  have hacc : (oneBlock.step (.allocate (2 ^ 64 - 64) none)).Accounted := h.2.2.2.2
  exact absurd hacc.used (by decide)

end TensorPool

end Uaii.Memory
