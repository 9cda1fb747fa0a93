/-
  Uaii.Memory.Arena — `ArenaAllocator` (`libs/uaii-memory/src/arena.cpp`), on a budget.

  A chunk is named by its number. `operator new` is the environment: each call comes with
  what it answers for the chunks that are out and a size. It gives no object of 2^63
  bytes or more, and the chunks fit in the address space together; where it does not
  answer, `std::bad_alloc` leaves the call.

  Proved: in a run every call returns an aligned range inside its chunk, apart from the
  ranges handed out since the last reset, and the budget's use is the sum of the
  capacities, exactly as long as no sum that passes the bounds test has wrapped and
  `operator new` gives every chunk that the budget admits (`arena_sound_iff`).

  As built, `aligned + bytes` wraps for sizes near 2^64 (`wrapped_bound_passes`), and a
  chunk that is not given keeps its reservation (`refused_chunk_keeps_budget`).
-/

import Uaii.Memory.Pool

namespace Uaii.Memory

/-- `(value + alignment - 1) & ~(alignment - 1)`. -/
def alignUp (value alignment : Nat) : Nat :=
  if alignment = 0 then value else wrap64 (value + alignment - 1) &&& (2 ^ 64 - alignment)

/-- Clearing the low bits. -/
theorem and_mask {e : Nat} (he : e ≤ 64) {x : Nat} (hx : x < 2 ^ 64) : x &&& (2 ^ 64 - 2 ^ e) = x / 2 ^ e * 2 ^ e := by
  have hmask : 2 ^ 64 - 2 ^ e = (2 ^ (64 - e) - 1) <<< e := by
    rw [Nat.shiftLeft_eq, Nat.sub_mul, ← Nat.pow_add, Nat.sub_add_cancel he, Nat.one_mul]
  rw [hmask, ← Nat.shiftRight_eq_div_pow, ← Nat.shiftLeft_eq]
  apply Nat.eq_of_testBit_eq
  intro i
  rw [Nat.testBit_and, Nat.testBit_shiftLeft, Nat.testBit_shiftLeft, Nat.testBit_shiftRight, Nat.testBit_two_pow_sub_one]
  by_cases hi : e ≤ i
  · by_cases hlt : i < 64
    · have hlow : i - e < 64 - e := by omega
      simp [hi, hlow]
    · have hhigh : x.testBit i = false :=
        Nat.testBit_lt_two_pow (Nat.lt_of_lt_of_le hx (Nat.pow_le_pow_right (by decide) (by omega)))
      simp [hi, hhigh]
  · simp [hi]

/-- What the code asks of an alignment. -/
def IsAlignment (alignment : Nat) : Prop := ∃ e < 64, alignment = 2 ^ e

variable {alignment value : Nat}

theorem IsAlignment.pos (h : IsAlignment alignment) : 0 < alignment := by
  obtain ⟨e, -, rfl⟩ := h
  exact Nat.two_pow_pos e

theorem IsAlignment.le (h : IsAlignment alignment) : alignment ≤ 2 ^ 63 := by
  obtain ⟨e, he, rfl⟩ := h
  exact Nat.pow_le_pow_right (by decide) (by omega)

theorem alignUp_eq (h : IsAlignment alignment) :
    alignUp value alignment = wrap64 (value + alignment - 1) / alignment * alignment := by
  have hpos := h.pos
  obtain ⟨e, he, rfl⟩ := h
  rw [alignUp, if_neg (by omega)]
  exact and_mask (by omega) (Nat.mod_lt _ (by decide))

theorem alignUp_aligned (h : IsAlignment alignment) : alignUp value alignment % alignment = 0 := by
  rw [alignUp_eq h, Nat.mul_mod_left]

/-- Rounding up does not wrap below 2^63. -/
theorem le_alignUp (h : IsAlignment alignment) (hv : value < 2 ^ 63) : value ≤ alignUp value alignment := by
  have hpos := h.pos
  have hle := h.le
  have hdiv := Nat.div_add_mod (value + alignment - 1) alignment
  have hmod := Nat.mod_lt (value + alignment - 1) hpos
  rw [alignUp_eq h, wrap64_of_lt (by omega), Nat.mul_comm]
  omega

theorem alignUp_zero (h : IsAlignment alignment) : alignUp 0 alignment = 0 := by
  have hpos := h.pos
  have hle := h.le
  rw [alignUp_eq h, wrap64_of_lt (by omega), Nat.div_eq_of_lt (by omega), Nat.zero_mul]

/-! ## The arena -/

structure Chunk where
  /-- The allocation. -/
  data : Nat
  capacity : Nat
  offset : Nat
  deriving DecidableEq, Repr

/-- A pointer that was handed out, and its size. -/
structure Range where
  data : Nat
  start : Nat
  bytes : Nat
  deriving DecidableEq, Repr

structure Arena where
  budget : MemoryBudget
  chunkBytes : Nat
  /-- `chunks_`, the last first. -/
  chunks : List Chunk
  allocated : Nat
  next : Nat
  /-- What was handed out since the last reset. -/
  ranges : List Range
  deriving DecidableEq, Repr

/-- The answer of `operator new` for a size, beside the chunks that are out. -/
abbrev NewArray := (out : List Chunk) → (size : Nat) → Bool

def capacities (cs : List Chunk) : Nat := (cs.map (·.capacity)).sum

@[simp] theorem capacities_nil : capacities [] = 0 := rfl

@[simp] theorem capacities_cons (c : Chunk) (cs : List Chunk) : capacities (c :: cs) = c.capacity + capacities cs := by
  simp [capacities]

namespace Arena

def init (limit chunkBytes : Nat) : Arena := ⟨.ofLimit limit, max chunkBytes 4096, [], 0, 0, []⟩

/-- `alignof(std::max_align_t)`. -/
def maxAlign : Nat := 16

def effective (alignment : Nat) : Nat := if alignment = 0 then maxAlign else alignment

/-- The capacity of a new chunk. -/
def capFor (s : Arena) (minBytes : Nat) : Nat := max s.chunkBytes minBytes

/-- The budget after a reservation that passes. -/
def reserved (b : MemoryBudget) (n : Nat) : MemoryBudget :=
  { b with used := wrap64 (b.used + n), peak := max b.peak (wrap64 (b.used + n)) }

def grown (s : Arena) (cap : Nat) : Arena :=
  { s with budget := reserved s.budget cap, chunks := ⟨s.next, cap, 0⟩ :: s.chunks, next := s.next + 1 }

def newChunk (new : NewArray) (s : Arena) (minBytes : Nat) : Result Unit × Arena :=
  let cap := s.capFor minBytes
  match s.budget.reserve cap with
  | .error e => (.error e, s)
  | .ok budget =>
    if new s.chunks cap then
      (.ok (), { s with budget := budget, chunks := ⟨s.next, cap, 0⟩ :: s.chunks, next := s.next + 1 })
    else (.error (.thrown "std::bad_alloc"), { s with budget := budget })

/-- The bounds test of a pass. -/
def fits (c : Chunk) (bytes alignment : Nat) : Bool := wrap64 (alignUp c.offset alignment + bytes) ≤ c.capacity

/-- The range is cut off the last chunk. -/
def bump (s : Arena) (bytes alignment : Nat) : Option (Range × Arena) :=
  match s.chunks with
  | [] => none
  | c :: older =>
    if fits c bytes alignment then
      let aligned := alignUp c.offset alignment
      let range : Range := ⟨c.data, aligned, bytes⟩
      some (range, { s with
        chunks := { c with offset := wrap64 (aligned + bytes) } :: older
        allocated := wrap64 (s.allocated + bytes)
        ranges := range :: s.ranges })
    else none

/-- The second pass: a new chunk, and the test again. -/
def grow (new : NewArray) (s : Arena) (bytes alignment : Nat) : Result Range × Arena :=
  match s.newChunk new (wrap64 (bytes + alignment)) with
  | (.error e, s) => (.error e, s)
  | (.ok _, s) =>
    match s.bump bytes alignment with
    | some (r, s) => (.ok r, s)
    | none => (fail .internal "arena allocation failed", s)

def passes (new : NewArray) (s : Arena) (bytes alignment : Nat) : Result Range × Arena :=
  match s.bump bytes alignment with
  | some (r, s) => (.ok r, s)
  | none => s.grow new bytes alignment

def allocate (new : NewArray) (s : Arena) (bytes alignment : Nat) : Result Range × Arena :=
  if bytes = 0 then (fail .invalidArgument "arena allocate invalid args", s)
  else
    let alignment := effective alignment
    if s.chunks = [] then
      match s.newChunk new (wrap64 (bytes + alignment)) with
      | (.error e, s) => (.error e, s)
      | (.ok _, s) => s.passes new bytes alignment
    else s.passes new bytes alignment

def reset (s : Arena) : Arena :=
  { s with
    budget := s.chunks.foldl (fun b c => b.release c.capacity) s.budget
    chunks := []
    allocated := 0
    ranges := [] }

inductive Op where
  | allocate (bytes alignment : Nat) (new : NewArray)
  | reset

def step (s : Arena) : Op → Arena
  | .allocate bytes alignment new => (s.allocate new bytes alignment).2
  | .reset => s.reset

/-- A 64-bit size, a power of two (or 0, for the default), and answers that `operator new`
    can give. -/
def Allowed (_ : Arena) : Op → Prop
  | .allocate bytes alignment new =>
    bytes < 2 ^ 64 ∧ (alignment = 0 ∨ IsAlignment alignment) ∧
      ∀ out size, new out size = true → size < 2 ^ 63 ∧ capacities out + size < 2 ^ 64
  | .reset => True

/-- The budget's use is the sum of the capacities. -/
def Accounted (s : Arena) : Prop := s.budget.used = capacities s.chunks

/-- A range inside one chunk, aligned, apart from those that are out. -/
def Serves (s : Arena) : Op → Prop
  | .allocate bytes alignment new => ∀ r, (s.allocate new bytes alignment).1 = .ok r →
    r.bytes = bytes ∧ (∃ c ∈ (s.step (.allocate bytes alignment new)).chunks, c.data = r.data ∧ r.start + r.bytes ≤ c.capacity) ∧
      r.start % effective alignment = 0 ∧
      ∀ q ∈ s.ranges, q.data = r.data → q.start + q.bytes ≤ r.start ∨ r.start + r.bytes ≤ q.start
  | .reset => True

/-- `operator new` gives the chunk, if the budget admits it. -/
def Given (new : NewArray) (s : Arena) (cap : Nat) : Prop := s.budget.admits cap = true → new s.chunks cap = true

/-- The sum that passes the bounds test has not wrapped, and every chunk that the budget
    admits is given. Without a chunk the first may be too small, where its size wrapped. -/
def Sound (s : Arena) : Op → Prop
  | .allocate bytes alignment new =>
    let cap := s.capFor (wrap64 (bytes + effective alignment))
    bytes = 0 ∨
      match s.chunks with
      | [] => s.Given new cap ∧ (s.budget.admits cap = true → cap < bytes → (s.grown cap).Given new cap)
      | c :: _ =>
        if fits c bytes (effective alignment) then alignUp c.offset (effective alignment) + bytes < 2 ^ 64
        else s.Given new cap
  | .reset => True

/-! ## One call -/

structure Wf (s : Arena) : Prop where
  accounted : s.Accounted
  capacity_lt : ∀ c ∈ s.chunks, c.capacity < 2 ^ 63
  total_lt : capacities s.chunks < 2 ^ 64
  offset_le : ∀ c ∈ s.chunks, c.offset ≤ c.capacity
  data_lt : ∀ c ∈ s.chunks, c.data < s.next
  data_nodup : (s.chunks.map (·.data)).Nodup
  ranges : ∀ r ∈ s.ranges, ∃ c ∈ s.chunks, c.data = r.data ∧ r.start + r.bytes ≤ c.offset
  chunkBytes_pos : 0 < s.chunkBytes
  chunkBytes_lt : s.chunkBytes < 2 ^ 64

variable {s : Arena} {new : NewArray} {bytes : Nat}

theorem init_wf {limit chunkBytes : Nat} (h : chunkBytes < 2 ^ 64) : (init limit chunkBytes).Wf := by
  refine ⟨rfl, ?_, Nat.two_pow_pos 64, ?_, ?_, List.nodup_nil, ?_, ?_, ?_⟩
  · intro c hc
    cases hc
  · intro c hc
    cases hc
  · intro c hc
    cases hc
  · intro r hr
    cases hr
  · show 0 < max chunkBytes 4096
    omega
  · show max chunkBytes 4096 < 2 ^ 64
    omega

/-- What a call leaves: a well-formed arena, and on success a range of its own. -/
structure Served (ranges : List Range) (bytes alignment : Nat) (a : Result Range × Arena) : Prop where
  wf : a.2.Wf
  range : ∀ r, a.1 = .ok r → r.bytes = bytes ∧ (∃ c ∈ a.2.chunks, c.data = r.data ∧ r.start + r.bytes ≤ c.capacity) ∧
    r.start % alignment = 0 ∧ ∀ q ∈ ranges, q.data = r.data → q.start + q.bytes ≤ r.start ∨ r.start + r.bytes ≤ q.start

theorem grown_wf (h : s.Wf) {cap : Nat} (hcap : cap < 2 ^ 63) (hroom : capacities s.chunks + cap < 2 ^ 64) :
    (s.grown cap).Wf := by
  have hused : s.budget.used = capacities s.chunks := h.accounted
  refine ⟨?_, ?_, ?_, ?_, ?_, ?_, ?_, h.chunkBytes_pos, h.chunkBytes_lt⟩
  · show wrap64 (s.budget.used + cap) = capacities (⟨s.next, cap, 0⟩ :: s.chunks)
    rw [capacities_cons, wrap64_of_lt (by omega), hused, Nat.add_comm]
  · exact List.forall_mem_cons.mpr ⟨hcap, h.capacity_lt⟩
  · show capacities (⟨s.next, cap, 0⟩ :: s.chunks) < 2 ^ 64
    rw [capacities_cons]
    dsimp only
    omega
  · exact List.forall_mem_cons.mpr ⟨Nat.zero_le _, h.offset_le⟩
  · exact List.forall_mem_cons.mpr ⟨Nat.lt_succ_self _, fun c hc => Nat.lt_succ_of_lt (h.data_lt c hc)⟩
  · refine List.nodup_cons.mpr ⟨fun hmem => ?_, h.data_nodup⟩
    obtain ⟨c, hc, he⟩ := List.mem_map.mp hmem
    exact absurd he (Nat.ne_of_lt (h.data_lt c hc))
  · intro r hr
    obtain ⟨c, hc, hdata, hend⟩ := h.ranges r hr
    exact ⟨c, List.mem_cons_of_mem _ hc, hdata, hend⟩

/-- What a bump cuts off. -/
theorem bump_some {c : Chunk} {older : List Chunk} (hc : s.chunks = c :: older) (hfits : fits c bytes alignment = true) :
    s.bump bytes alignment = some (⟨c.data, alignUp c.offset alignment, bytes⟩, { s with
      chunks := ⟨c.data, c.capacity, wrap64 (alignUp c.offset alignment + bytes)⟩ :: older
      allocated := wrap64 (s.allocated + bytes)
      ranges := ⟨c.data, alignUp c.offset alignment, bytes⟩ :: s.ranges }) := by
  simp only [bump, hc, hfits, if_true]

/-- A range that fits, without a wrap, is cut off past all others. -/
theorem bump_served (h : s.Wf) (ha : IsAlignment alignment) {c : Chunk} {older : List Chunk} (hc : s.chunks = c :: older)
    (hfits : fits c bytes alignment = true) (hsum : alignUp c.offset alignment + bytes < 2 ^ 64) :
    ∃ r s', s.bump bytes alignment = some (r, s') ∧ Served s.ranges bytes alignment (.ok r, s') := by
  have hmem : c ∈ s.chunks := by simp [hc]
  have hend : alignUp c.offset alignment + bytes ≤ c.capacity := by
    simp only [fits, decide_eq_true_eq] at hfits
    rwa [wrap64_of_lt hsum] at hfits
  have hoff : c.offset ≤ alignUp c.offset alignment :=
    le_alignUp ha (Nat.lt_of_le_of_lt (h.offset_le c hmem) (h.capacity_lt c hmem))
  have hnodup := h.data_nodup
  rw [hc, List.map_cons, List.nodup_cons] at hnodup
  refine ⟨_, _, bump_some hc hfits, ⟨?_, ?_⟩⟩
  · have hcap := h.capacity_lt
    have htotal := h.total_lt
    have hoffset := h.offset_le
    have hdata := h.data_lt
    have hacc : s.budget.used = capacities s.chunks := h.accounted
    rw [hc] at hcap htotal hoffset hdata hacc
    rw [List.forall_mem_cons] at hcap hoffset hdata
    rw [wrap64_of_lt hsum]
    refine ⟨hacc, List.forall_mem_cons.mpr hcap, htotal, List.forall_mem_cons.mpr ⟨hend, hoffset.2⟩,
      List.forall_mem_cons.mpr hdata, List.nodup_cons.mpr hnodup, List.forall_mem_cons.mpr ⟨?_, ?_⟩, h.chunkBytes_pos,
      h.chunkBytes_lt⟩
    · exact ⟨_, List.mem_cons_self, rfl, Nat.le_refl _⟩
    · intro q hq
      obtain ⟨d, hd, hdq, hdend⟩ := h.ranges q hq
      rw [hc] at hd
      rcases List.mem_cons.mp hd with rfl | hd
      · exact ⟨_, List.mem_cons_self, hdq, by dsimp only; omega⟩
      · exact ⟨d, List.mem_cons_of_mem _ hd, hdq, hdend⟩
  · intro r hr
    cases hr
    refine ⟨rfl, ⟨_, List.mem_cons_self, rfl, hend⟩, alignUp_aligned ha, fun q hq hqdata => .inl ?_⟩
    obtain ⟨d, hd, hdq, hdend⟩ := h.ranges q hq
    have hsame : d = c := List.inj_on_of_nodup_map h.data_nodup hd hmem (hdq.trans hqdata)
    rw [hsame] at hdend
    dsimp only
    omega

theorem bump_none {c : Chunk} {older : List Chunk} (hc : s.chunks = c :: older) (hfits : fits c bytes alignment = false) :
    s.bump bytes alignment = none := by
  simp [bump, hc, hfits]

theorem newChunk_given {n : Nat} (hb : s.budget.admits (s.capFor n) = true) (hnew : new s.chunks (s.capFor n) = true) :
    s.newChunk new n = (.ok (), s.grown (s.capFor n)) := by
  simp only [newChunk, MemoryBudget.reserve_of_admits hb, hnew, if_true]
  rfl

theorem newChunk_refused {n : Nat} (hb : s.budget.admits (s.capFor n) = true) (hnew : new s.chunks (s.capFor n) = false) :
    s.newChunk new n = (.error (.thrown "std::bad_alloc"), { s with budget := reserved s.budget (s.capFor n) }) := by
  simp only [newChunk, MemoryBudget.reserve_of_admits hb, hnew]
  rfl

theorem newChunk_over (new : NewArray) {n : Nat} (hb : s.budget.admits (s.capFor n) = false) : ∃ e, s.newChunk new n = (.error e, s) := by
  obtain ⟨e, he⟩ := MemoryBudget.reserve_of_not_admits hb
  exact ⟨.error .invalidArgument e, by simp only [newChunk, he]⟩

/-- A new chunk has room for what is no larger than it. -/
theorem fits_grown (ha : IsAlignment alignment) (hbytes : bytes < 2 ^ 64) {data cap : Nat} :
    fits ⟨data, cap, 0⟩ bytes alignment = decide (bytes ≤ cap) := by
  simp only [fits, alignUp_zero ha, Nat.zero_add, wrap64_of_lt hbytes]

theorem served_error (h : s.Wf) {ranges : List Range} (e : Fault) : Served ranges bytes alignment (.error e, s) :=
  ⟨h, fun r hr => by cases hr⟩

/-- The answers `operator new` can give. -/
def NewOk (new : NewArray) : Prop := ∀ out size, new out size = true → size < 2 ^ 63 ∧ capacities out + size < 2 ^ 64

theorem grown_of_given (h : s.Wf) (hnew : NewOk new) {cap : Nat} (hg : new s.chunks cap = true) : (s.grown cap).Wf := by
  obtain ⟨hcap, hroom⟩ := hnew _ _ hg
  exact grown_wf h hcap hroom

theorem grow_served (h : s.Wf) (hnew : NewOk new) (ha : IsAlignment alignment) (hbytes : bytes < 2 ^ 64)
    (hg : s.Given new (s.capFor (wrap64 (bytes + alignment)))) : Served s.ranges bytes alignment (s.grow new bytes alignment) := by
  unfold grow
  by_cases hb : s.budget.admits (s.capFor (wrap64 (bytes + alignment))) = true
  · have hwf := grown_of_given h hnew (hg hb)
    rw [newChunk_given hb (hg hb)]
    dsimp only
    by_cases hfit : bytes ≤ s.capFor (wrap64 (bytes + alignment))
    · obtain ⟨r, s', hbump, hserved⟩ : ∃ r s', (s.grown (s.capFor (wrap64 (bytes + alignment)))).bump bytes alignment = some (r, s') ∧
          Served (s.grown (s.capFor (wrap64 (bytes + alignment)))).ranges bytes alignment (.ok r, s') :=
        bump_served hwf ha rfl (by rw [fits_grown ha hbytes]; simpa using hfit) (by rw [alignUp_zero ha]; omega)
      rw [hbump]
      exact hserved
    · rw [bump_none rfl (by rw [fits_grown ha hbytes]; simpa using hfit)]
      exact served_error hwf _
  · obtain ⟨e, he⟩ := newChunk_over new (by simpa using hb)
    rw [he]
    exact served_error h _

theorem passes_served (h : s.Wf) (hnew : NewOk new) (ha : IsAlignment alignment) (hbytes : bytes < 2 ^ 64) {c : Chunk}
    {older : List Chunk} (hc : s.chunks = c :: older)
    (hfit : fits c bytes alignment = true → alignUp c.offset alignment + bytes < 2 ^ 64)
    (hg : fits c bytes alignment = false → s.Given new (s.capFor (wrap64 (bytes + alignment)))) :
    Served s.ranges bytes alignment (s.passes new bytes alignment) := by
  unfold passes
  cases hf : fits c bytes alignment with
  | true =>
    obtain ⟨r, s', hbump, hserved⟩ := bump_served h ha hc hf (hfit hf)
    rw [hbump]
    exact hserved
  | false =>
    rw [bump_none hc hf]
    exact grow_served h hnew ha hbytes (hg hf)

theorem effective_alignment (h : alignment = 0 ∨ IsAlignment alignment) : IsAlignment (effective alignment) := by
  unfold effective
  split
  · exact ⟨4, by decide, rfl⟩
  · rename_i hne
    exact h.resolve_left hne

theorem allocate_served (h : s.Wf) (ha : s.Allowed (.allocate bytes alignment new))
    (hs : s.Sound (.allocate bytes alignment new)) :
    Served s.ranges bytes (effective alignment) (s.allocate new bytes alignment) := by
  obtain ⟨hbytes, halign, hnew⟩ := ha
  have heff := effective_alignment halign
  unfold allocate
  split
  · exact served_error h _
  rename_i hpos
  rcases hs with hzero | hs
  · exact absurd hzero hpos
  dsimp only
  cases hc : s.chunks with
  | nil =>
    simp only [hc] at hs
    obtain ⟨hfirst, hsecond⟩ := hs
    rw [if_pos rfl]
    by_cases hb : s.budget.admits (s.capFor (wrap64 (bytes + effective alignment))) = true
    · rw [newChunk_given hb (hfirst hb)]
      refine passes_served (grown_of_given h hnew (hfirst hb)) hnew heff hbytes rfl (fun _ => ?_) (fun hf => ?_)
      · rw [alignUp_zero heff]
        omega
      · rw [fits_grown heff hbytes, decide_eq_false_iff_not] at hf
        exact hsecond hb (by omega)
    · obtain ⟨e, he⟩ := newChunk_over new (by simpa using hb)
      rw [he]
      exact served_error h _
  | cons c older =>
    simp only [hc] at hs
    rw [if_neg (by simp)]
    refine passes_served h hnew heff hbytes hc (fun hf => ?_) (fun hf => ?_)
    · simpa only [hf, if_true] using hs
    · simpa only [hf, Bool.false_eq_true, if_false] using hs

theorem foldl_release (cs : List Chunk) : ∀ b : MemoryBudget,
    (cs.foldl (fun b c => b.release c.capacity) b).used = b.used - capacities cs := by
  induction cs with
  | nil => intro b; rfl
  | cons c cs ih =>
    intro b
    rw [List.foldl_cons, ih, MemoryBudget.release_used, capacities_cons]
    omega

theorem reset_wf (h : s.Wf) : s.reset.Wf := by
  have hused : s.budget.used = capacities s.chunks := h.accounted
  refine ⟨?_, ?_, Nat.two_pow_pos 64, ?_, ?_, List.nodup_nil, ?_, h.chunkBytes_pos, h.chunkBytes_lt⟩
  · show (s.chunks.foldl (fun b c => b.release c.capacity) s.budget).used = 0
    rw [foldl_release]
    omega
  · intro c hc
    cases hc
  · intro c hc
    cases hc
  · intro c hc
    cases hc
  · intro r hr
    cases hr

theorem step_wf (h : s.Wf) {o : Op} (ha : s.Allowed o) (hs : s.Sound o) : s.Serves o ∧ (s.step o).Wf := by
  cases o with
  | reset => exact ⟨trivial, reset_wf h⟩
  | allocate bytes alignment new =>
    have hserved := allocate_served h ha hs
    exact ⟨hserved.range, hserved.wf⟩

/-! ## Runs -/

/-- A reservation that stays without its chunk. -/
theorem refused_not_accounted (h : s.Wf) {cap : Nat} (hpos : 0 < cap) (hlt : cap < 2 ^ 64) :
    ¬ ({ s with budget := reserved s.budget cap } : Arena).Accounted := by
  intro hacc
  replace hacc : wrap64 (s.budget.used + cap) = capacities s.chunks := hacc
  have hused : s.budget.used = capacities s.chunks := h.accounted
  have htotal := h.total_lt
  unfold wrap64 at hacc
  omega

theorem capFor_bounds (h : s.Wf) (n : Nat) : 0 < s.capFor (wrap64 n) ∧ s.capFor (wrap64 n) < 2 ^ 64 := by
  have hpos := h.chunkBytes_pos
  have hlt := h.chunkBytes_lt
  have hwrap : wrap64 n < 2 ^ 64 := Nat.mod_lt _ (Nat.two_pow_pos 64)
  unfold capFor
  omega

theorem grow_refused (h : s.Wf) (hg : ¬ s.Given new (s.capFor (wrap64 (bytes + alignment)))) :
    ¬ (s.grow new bytes alignment).2.Accounted := by
  simp only [Given, Classical.not_imp, Bool.not_eq_true] at hg
  obtain ⟨hpos, hlt⟩ := capFor_bounds h (bytes + alignment)
  rw [grow, newChunk_refused hg.1 hg.2]
  exact refused_not_accounted h hpos hlt

/-- The first chunk was given, and so was the second where the first was too small. -/
theorem first_given (h : s.Wf) (hnew : NewOk new) (ha : IsAlignment alignment) (hbytes : bytes < 2 ^ 64)
    (hacc : ∀ e s', s.newChunk new (wrap64 (bytes + alignment)) = (.error e, s') → s'.Accounted)
    (hnext : ∀ s', s.newChunk new (wrap64 (bytes + alignment)) = (.ok (), s') → (s'.passes new bytes alignment).2.Accounted) :
    s.Given new (s.capFor (wrap64 (bytes + alignment))) ∧ (s.budget.admits (s.capFor (wrap64 (bytes + alignment))) = true →
      s.capFor (wrap64 (bytes + alignment)) < bytes →
        (s.grown (s.capFor (wrap64 (bytes + alignment)))).Given new (s.capFor (wrap64 (bytes + alignment)))) := by
  have hfirst : s.Given new (s.capFor (wrap64 (bytes + alignment))) := by
    by_contra hg
    simp only [Given, Classical.not_imp, Bool.not_eq_true] at hg
    obtain ⟨hpos, hlt⟩ := capFor_bounds h (bytes + alignment)
    exact refused_not_accounted h hpos hlt (hacc _ _ (newChunk_refused hg.1 hg.2))
  refine ⟨hfirst, fun hb hsmall => ?_⟩
  by_contra hg
  have hgrown := hnext _ (newChunk_given hb (hfirst hb))
  have hno : fits ⟨s.next, s.capFor (wrap64 (bytes + alignment)), 0⟩ bytes alignment = false := by
    rw [fits_grown ha hbytes, decide_eq_false_iff_not]
    omega
  rw [passes, bump_none rfl hno] at hgrown
  exact grow_refused (grown_of_given h hnew (hfirst hb)) hg hgrown

/-- A range that ends inside a chunk has not wrapped. -/
theorem end_lt (h : s.Wf) {c d : Chunk} {older : List Chunk} (hc : s.chunks = c :: older) {n : Nat}
    (hd : d ∈ (⟨c.data, c.capacity, wrap64 n⟩ : Chunk) :: older) (hend : n ≤ d.capacity) : n < 2 ^ 64 := by
  have hcap := h.capacity_lt
  rw [hc, List.forall_mem_cons] at hcap
  rcases List.mem_cons.mp hd with rfl | hd
  · have hlt := hcap.1
    dsimp only at hend
    omega
  · have hlt := hcap.2 d hd
    omega

/-- A call that does not meet the condition hands out a range past its chunk, or leaves a
    reservation behind. -/
theorem unsound (h : s.Wf) {o : Op} (ha : s.Allowed o) (hserves : s.Serves o) (hacc : (s.step o).Accounted) : s.Sound o := by
  cases o with
  | reset => trivial
  | allocate bytes alignment new =>
    obtain ⟨hbytes, halign, hnew⟩ := ha
    have heff := effective_alignment halign
    by_cases hzero : bytes = 0
    · exact .inl hzero
    refine .inr ?_
    simp only [step, allocate, if_neg hzero] at hacc
    simp only [Serves, step, allocate, if_neg hzero] at hserves
    cases hc : s.chunks with
    | nil =>
      rw [if_pos hc] at hacc
      refine first_given h hnew heff hbytes (fun e s' he => ?_) (fun s' hs => ?_)
      · rw [he] at hacc
        exact hacc
      · rw [hs] at hacc
        exact hacc
    | cons c older =>
      have hne : ¬ s.chunks = [] := by simp [hc]
      rw [if_neg hne] at hacc
      simp only [if_neg hne] at hserves
      dsimp only
      cases hf : fits c bytes (effective alignment) with
      | false =>
        rw [if_neg (by simp)]
        rw [passes, bump_none hc hf] at hacc
        by_contra hg
        exact grow_refused h hg hacc
      | true =>
        rw [if_pos rfl]
        simp only [passes, bump_some hc hf] at hserves
        obtain ⟨-, ⟨d, hd, -, hend⟩, -⟩ := hserves _ rfl
        exact end_lt h hc hd hend

/-- Every call of a run hands out a range of its own and the budget's use is the sum of the
    capacities throughout, exactly when no passing sum has wrapped and every chunk that the
    budget admits is given. -/
theorem arena_sound_iff {limit chunkBytes : Nat} (hlt : chunkBytes < 2 ^ 64) {ops : List Op}
    (ha : Runs.Along step Allowed (init limit chunkBytes) ops) :
    Runs.Throughout step Accounted Serves (init limit chunkBytes) ops ↔ Runs.Along step Sound (init limit chunkBytes) ops :=
  Runs.throughout_iff (fun _ => Wf.accounted) (fun _ _ h => step_wf h) (fun _ _ h => unsound h) (init_wf hlt) ha

/-- An environment that gives a chunk as long as the chunks stay below `room` bytes. -/
def newBelow (room : Nat) : NewArray := fun out size => size < 2 ^ 63 && capacities out + size < room

theorem newBelow_ok {room : Nat} (h : room ≤ 2 ^ 64) : NewOk (newBelow room) := by
  intro out size hnew
  simp only [newBelow, Bool.and_eq_true, decide_eq_true_eq] at hnew
  omega

theorem two_ranges_sound :
    let ops : List Op := [.allocate 10 8 (newBelow (2 ^ 20)), .allocate 100 64 (newBelow (2 ^ 20)), .reset]
    Runs.Throughout step Accounted Serves (init 0 0) ops ↔ Runs.Along step Sound (init 0 0) ops := by
  have hok : NewOk (newBelow (2 ^ 20)) := newBelow_ok (by decide)
  exact arena_sound_iff (by decide)
    ⟨⟨by decide, .inr ⟨3, by decide, rfl⟩, hok⟩, ⟨by decide, .inr ⟨6, by decide, rfl⟩, hok⟩, trivial, trivial⟩

/-- With 64 bytes handed out, 2^64 - 64 more end at 0, which is within the chunk: the range
    that is returned leaves it. -/
theorem wrapped_bound_passes :
    let ops : List Op := [.allocate 64 64 (newBelow (2 ^ 20)), .allocate (2 ^ 64 - 64) 64 (newBelow (2 ^ 20))]
    Runs.Along step Allowed (init 0 0) ops ∧ ¬ Runs.Throughout step Accounted Serves (init 0 0) ops := by
  have hok : NewOk (newBelow (2 ^ 20)) := newBelow_ok (by decide)
  refine ⟨⟨⟨by decide, .inr ⟨6, by decide, rfl⟩, hok⟩, ⟨by decide, .inr ⟨6, by decide, rfl⟩, hok⟩, trivial⟩, fun h => ?_⟩
  have hserves := h.2.2.2.1 ⟨0, 64, 2 ^ 64 - 64⟩ (by decide)
  obtain ⟨-, ⟨c, hc, -, hend⟩, -⟩ := hserves
  obtain rfl : c = ⟨0, 4096, 0⟩ := List.mem_singleton.mp hc
  exact absurd hend (by decide)

/-- A chunk that is not given: its reservation stays. -/
theorem refused_chunk_keeps_budget :
    ¬ Runs.Throughout step Accounted Serves (init 0 0) [.allocate (2 ^ 62) 16 (newBelow (2 ^ 20))] := by
  intro h
  have hacc : ((init 0 0).step (.allocate (2 ^ 62) 16 (newBelow (2 ^ 20)))).budget.used = 0 := h.2.2
  exact absurd hacc (by decide)

end Arena

end Uaii.Memory
