/-
  Uaii.Storage.Streaming — `StreamingWeightStore`
  (`libs/uaii-storage/src/streaming.cpp`).

  One or two staging buffers, each tagged with the tensor it holds, and an asynchronous
  prefetch into the inactive one. `stage` answers with a pointer into the active buffer,
  or to the expert's block in the cache.

  The loader is the environment: its answer to the `k`-th load, and what it leaves in
  the buffer, are parameters. A prefetch task runs as one step (`complete`); `Moment`
  adds what a reader sees while it writes.

  Proved: a slot's tag says what the slot holds as long as no load fails over a tagged
  slot (`Inv`, kept by `complete_inv`, `prefetch_inv` and `stage_spec`); and what
  `stage_into` spares still reads as it did (`stageInto_spec`).
-/

import Mathlib.Logic.Function.Basic
import Uaii.Planner.StoragePlan
import Uaii.Storage.ExpertCache

namespace Uaii.Storage

open Uaii.Ir
open Uaii.Planner (StoragePlacement StoragePlan)

/-- Where staged bytes are. -/
inductive Ptr where
  | slot (i : Fin 2)
  | block (addr : Nat)
  deriving DecidableEq, Repr

/-- `prefetch_fut_` and `prefetch_id_`; `result` is `none` until the task has run. -/
structure PrefetchTask where
  slot : Fin 2
  id : TensorId
  result : Option (Result Unit)

structure Store where
  /-- The streamed placements: `handles_`, `sizes_` and `expert_`. -/
  placements : List StoragePlacement
  buffers : Fin 2 → Bytes
  resident : Fin 2 → TensorId
  active : Fin 2
  prefetchFut : Option PrefetchTask
  experts : ExpertCache
  /-- Loads made so far. -/
  loads : Nat

/-- The `k`-th load, of `n` bytes of tensor `id` from `uri` over a buffer: the loader's
    error, and the buffer it leaves. -/
abbrev Loader := (k : Nat) → (id : TensorId) → (uri : String) → (n : Nat) → Bytes → Result Unit × Bytes

def uriOf (p : StoragePlacement) : String := if p.uri = "" then p.name else p.uri

namespace Store

def configure (plan : StoragePlan) : Store where
  placements := (plan.placements.filter (·.stream)).reverse
  buffers i := if i = 0 ∨ 1 < plan.stagingSlots then List.replicate (max plan.stagingBytes 1) 0 else []
  resident _ := 0
  active := 0
  prefetchFut := none
  experts := .init plan.expertCacheBytes
  loads := 0

def placement (s : Store) (id : TensorId) : Option StoragePlacement := s.placements.find? (·.tensorId == id)

def isStreamed (s : Store) (id : TensorId) : Bool := (s.placement id).isSome

def isExpert (s : Store) (id : TensorId) : Bool := (s.placement id).any (·.expert)

def setSlot (s : Store) (slot : Fin 2) (b : Bytes) : Store := { s with buffers := Function.update s.buffers slot b }

def setResident (s : Store) (slot : Fin 2) (id : TensorId) : Store :=
  { s with resident := Function.update s.resident slot id }

/-- The cached bytes, of an expert. -/
def cached (s : Store) (p : StoragePlacement) : Option Bytes :=
  if p.expert then s.experts.get p.tensorId p.bytes else none

/-- The loader's answer to the next load, of `p` into `slot`. -/
def loadAnswer (env : Loader) (s : Store) (slot : Fin 2) (p : StoragePlacement) : Result Unit × Bytes :=
  env s.loads p.tensorId (uriOf p) p.bytes (s.buffers slot)

def stageInto (env : Loader) (s : Store) (slot : Fin 2) (id : TensorId) : Result Unit × Store :=
  match s.placement id with
  | none => (fail .notFound "tensor not streamed", s)
  | some p =>
    if (s.buffers slot).length < p.bytes then (fail .invalidArgument "weight exceeds staging buffer", s)
    else match s.cached p with
      | some data =>
        let s : Store := { s with experts := s.experts.touch id }
        (.ok (), (s.setSlot slot (data ++ (s.buffers slot).drop p.bytes)).setResident slot id)
      | none =>
        let answer := s.loadAnswer env slot p
        let s : Store := { s.setSlot slot answer.2 with loads := s.loads + 1 }
        match answer.1 with
        | .error e => (.error e, s)
        | .ok _ =>
          let s : Store :=
            if p.expert then { s with experts := s.experts.put id ((s.buffers slot).take p.bytes) } else s
          (.ok (), s.setResident slot id)

/-- The prefetch task runs. -/
def complete (env : Loader) (s : Store) : Store :=
  match s.prefetchFut with
  | some ⟨slot, id, none⟩ =>
    let r := s.stageInto env slot id
    { r.2 with prefetchFut := some ⟨slot, id, some r.1⟩ }
  | _ => s

/-- The buffer that `prefetch` fills. -/
def inactive (s : Store) : Fin 2 := 1 - s.active

/-- `prefetch` launches its task. -/
def canPrefetch (s : Store) (id : TensorId) : Bool :=
  s.isStreamed id && s.buffers 1 != [] && s.resident s.active != id && s.resident (1 - s.active) != id &&
    s.prefetchFut.isNone

def prefetch (s : Store) (id : TensorId) : Store :=
  if s.canPrefetch id then { s with prefetchFut := some ⟨1 - s.active, id, none⟩ } else s

/-- `prefetch_fut_.get()`, where one is valid. -/
def settle (env : Loader) (s : Store) : Result Unit × Store :=
  match (s.complete env).prefetchFut with
  | some ⟨_, _, some r⟩ => (r, { s.complete env with prefetchFut := none })
  | _ => (.ok (), s)

def flip (s : Store) : Store := if s.buffers (1 - s.active) = [] then s else { s with active := 1 - s.active }

/-- `stage` up to its out pointers: the active buffer holds `id`. -/
def bringIn (env : Loader) (s : Store) (id : TensorId) : Result Unit × Store :=
  let r := s.settle env
  if s.prefetchFut.any (·.id == id) then
    match r.1 with
    | .error e => (.error e, r.2)
    | .ok _ => (.ok (), r.2.flip)
  else if r.2.resident r.2.active = id then (.ok (), r.2)
  else if r.2.buffers (1 - r.2.active) ≠ [] ∧ r.2.resident (1 - r.2.active) = id then (.ok (), r.2.flip)
  else r.2.stageInto env r.2.active id

def stage (env : Loader) (s : Store) (id : TensorId) : Result (Ptr × Nat) × Store :=
  match s.placement id with
  | none => (fail .notFound "tensor not streamed", s)
  | some p =>
    let r := s.bringIn env id
    match r.1 with
    | .error e => (.error e, r.2)
    | .ok _ =>
      match if p.expert then r.2.experts.find id else none with
      | some b =>
        if b.bytes ≠ [] then (.ok (.block b.addr, b.bytes.length), { r.2 with experts := r.2.experts.markHot id })
        else (.ok (.slot r.2.active, p.bytes), r.2)
      | none => (.ok (.slot r.2.active, p.bytes), r.2)

/-- The bytes at a pointer. -/
def read (s : Store) : Ptr × Nat → Option Bytes
  | (.slot i, n) => if n ≤ (s.buffers i).length then some ((s.buffers i).take n) else none
  | (.block a, n) =>
    match s.experts.at? a with
    | some b => if n ≤ b.bytes.length then some (b.bytes.take n) else none
    | none => none

end Store

/-- What a reader may find while a prefetch is under way: the store before the task, with
    its slot half written, or after it. -/
inductive Moment (env : Loader) (s : Store) : Store → Prop
  | before : Moment env s s
  | during (t : PrefetchTask) (junk : Bytes) :
      s.prefetchFut = some t → t.result = none → Moment env s (s.setSlot t.slot junk)
  | after : Moment env s (s.complete env)

/-! ## What `stage_into` spares -/

namespace Store

/-- `stage_into` would call the loader. -/
def misses (s : Store) (slot : Fin 2) (p : StoragePlacement) : Bool :=
  p.bytes ≤ (s.buffers slot).length && (s.cached p).isNone

/-- No load fails over a tagged slot. -/
def LoadSafe (env : Loader) (s : Store) (slot : Fin 2) (id : TensorId) : Prop :=
  s.resident slot = 0 ∨
    ∀ p ∈ s.placement id, s.misses slot p = true → (s.loadAnswer env slot p).1 = .ok ()

/-- `stage_into(slot, id)` leaves the memory that `held` points to: it is not the slot
    written, nor a block evicted for the new one. -/
structure Spares (env : Loader) (s : Store) (held : List Ptr) (slot : Fin 2) (id : TensorId) : Prop where
  load_safe : s.LoadSafe env slot id
  slot_free : .slot slot ∉ held
  block_stays : ∀ p ∈ s.placement id, s.misses slot p = true → p.expert = true → ∀ a, .block a ∈ held →
    ∃ b ∈ (s.experts.makeRoom p.bytes).store, b.addr = a

end Store

/-- What the loader promises: a load that succeeds leaves the tensor's bytes in front,
    and none changes the buffer's size. Tensor 0 does not exist (`validate_graph`). -/
structure Faithful (env : Loader) (weight : TensorId → Bytes) (ps : List StoragePlacement) : Prop where
  id_ne_zero : ∀ p ∈ ps, p.tensorId ≠ 0
  weight_length : ∀ p ∈ ps, (weight p.tensorId).length = p.bytes
  load_length : ∀ p ∈ ps, ∀ k buf, (env k p.tensorId (uriOf p) p.bytes buf).2.length = buf.length
  load_bytes : ∀ p ∈ ps, ∀ k buf, p.bytes ≤ buf.length → (env k p.tensorId (uriOf p) p.bytes buf).1 = .ok () →
    (env k p.tensorId (uriOf p) p.bytes buf).2 = weight p.tensorId ++ buf.drop p.bytes

namespace Store

variable {env : Loader} {weight : TensorId → Bytes} {s : Store} {id : TensorId} {slot : Fin 2}

theorem placement_some {p : StoragePlacement} (h : s.placement id = some p) : p ∈ s.placements ∧ p.tensorId = id :=
  ⟨List.mem_of_find?_eq_some h, by simpa using List.find?_some h⟩

/-- The store without its pending task. -/
structure Ok (env : Loader) (weight : TensorId → Bytes) (s : Store) : Prop where
  faithful : Faithful env weight s.placements
  front : s.buffers 0 ≠ []
  tag : ∀ i, s.resident i ≠ 0 → ∃ p, s.placement (s.resident i) = some p ∧ p.bytes ≤ (s.buffers i).length ∧
    (s.buffers i).take p.bytes = weight (s.resident i)
  experts : s.experts.Wf weight

/-- `Ok` is about the buffers, the tags and the cache. -/
theorem Ok.frame {s' : Store} (h : s.Ok env weight) (hp : s'.placements = s.placements) (hb : s'.buffers = s.buffers)
    (hr : s'.resident = s.resident) (he : s'.experts.Wf weight) : s'.Ok env weight := by
  refine ⟨hp ▸ h.faithful, hb ▸ h.front, ?_, he⟩
  simp only [placement, hp, hb, hr]
  exact h.tag

def Holds (weight : TensorId → Bytes) (s : Store) (ptr : Ptr × Nat) (id : TensorId) : Prop :=
  s.read ptr = some (weight id)

/-- A well-formed cache's bytes are the weight. -/
theorem Ok.cached_eq (h : s.Ok env weight) {p : StoragePlacement} {data : Bytes} (hc : s.cached p = some data) :
    data = weight p.tensorId ∧ data.length = p.bytes := by
  unfold cached ExpertCache.get at hc
  split at hc
  · split at hc
    · rename_i b hb
      split at hc
      · rename_i hlen
        cases hc
        exact ⟨h.experts.find_bytes hb, hlen⟩
      · cases hc
    · cases hc
  · cases hc

/-- An expert that is not cached has no block. -/
theorem Ok.uncached (h : s.Ok env weight) {p : StoragePlacement} (hp : p ∈ s.placements) (he : p.expert = true)
    (hc : s.cached p = none) : ∀ b ∈ s.experts.store, b.id ≠ p.tensorId := by
  intro b hb hid
  unfold cached ExpertCache.get at hc
  rw [if_pos he] at hc
  cases hfind : s.experts.find p.tensorId with
  | none =>
    have hno := List.find?_eq_none.mp hfind b hb
    simp [hid] at hno
  | some b' =>
    have hlen : b'.bytes.length = p.bytes := by
      rw [h.experts.find_bytes hfind]
      exact h.faithful.weight_length p hp
    rw [hfind] at hc
    simp [hlen] at hc

/-- A slot that is written with a tensor's bytes, and tagged with it. -/
theorem Ok.write (h : s.Ok env weight) {p : StoragePlacement} (hp : s.placement id = some p)
    (hlen : p.bytes ≤ (s.buffers slot).length) {c : ExpertCache} (hc : c.Wf weight) (k : Nat) :
    ((({ s with experts := c, loads := k } : Store).setSlot slot
      (weight id ++ (s.buffers slot).drop p.bytes)).setResident slot id).Ok env weight := by
  obtain ⟨hmem, rfl⟩ := placement_some hp
  have hsize := h.faithful.weight_length p hmem
  refine ⟨h.faithful, ?_, ?_, hc⟩
  · by_cases hz : slot = 0
    · subst hz
      have hne : 0 < (s.buffers 0).length := List.length_pos_iff.mpr h.front
      simp only [setResident, setSlot, Function.update_self]
      rw [← List.length_pos_iff, List.length_append, List.length_drop]
      omega
    · simp only [setResident, setSlot, Function.update_of_ne (Ne.symm hz)]
      exact h.front
  · intro i hi
    by_cases his : i = slot
    · subst his
      refine ⟨p, by simpa [setResident, setSlot, placement] using hp, ?_, ?_⟩
      · simp only [setResident, setSlot, Function.update_self, List.length_append, List.length_drop]
        omega
      · simp only [setResident, setSlot, Function.update_self, ← hsize, List.take_left]
    · simp only [setResident, setSlot, Function.update_of_ne his] at hi ⊢
      exact h.tag i hi

/-- What a slot's new content leaves alone. -/
theorem Holds.write {held : List Ptr} {ptr : Ptr} {n : Nat} {id' : TensorId} (hh : s.Holds weight (ptr, n) id')
    (hptr : ptr ∈ held) (hslot : .slot slot ∉ held) {c : ExpertCache} (hc : c.Wf weight)
    (hkeep : ∀ b ∈ s.experts.store, .block b.addr ∈ held → b ∈ c.store) (k : Nat) (bytes : Bytes) :
    (({ s with experts := c, loads := k } : Store).setSlot slot bytes).Holds weight (ptr, n) id' := by
  cases ptr with
  | slot i =>
    have hne : i ≠ slot := by
      intro he
      exact hslot (he ▸ hptr)
    simpa [Holds, read, setSlot, Function.update_of_ne hne] using hh
  | block a =>
    unfold Holds read at hh ⊢
    cases hat : s.experts.at? a with
    | none => simp [hat] at hh
    | some b =>
      obtain ⟨hb, rfl⟩ := ExpertCache.at?_some hat
      have hat' : c.at? b.addr = some b := hc.at?_eq (hkeep b hb hptr)
      simpa [setSlot, hat, hat'] using hh

structure StagedInto (env : Loader) (weight : TensorId → Bytes) (s : Store) (held : List Ptr) (slot : Fin 2)
    (id : TensorId) (r : Result Unit × Store) : Prop where
  ok : r.2.Ok env weight
  placements : r.2.placements = s.placements
  active : r.2.active = s.active
  task : r.2.prefetchFut = s.prefetchFut
  sizes : ∀ i, (r.2.buffers i).length = (s.buffers i).length
  resident : r.1 = .ok () → r.2.resident slot = id
  holds : ∀ ptr ∈ held, ∀ n id', s.Holds weight (ptr, n) id' → r.2.Holds weight (ptr, n) id'

theorem stageInto_spec (h : s.Ok env weight) {held : List Ptr} (hs : s.Spares env held slot id) :
    StagedInto env weight s held slot id (s.stageInto env slot id) := by
  have hstay : ∀ e, StagedInto env weight s held slot id (.error e, s) := fun e =>
    ⟨h, rfl, rfl, rfl, fun _ => rfl, nofun, fun _ _ _ _ hh => hh⟩
  unfold stageInto
  cases hp : s.placement id with
  | none => exact hstay _
  | some p =>
    dsimp only
    split
    · exact hstay _
    rename_i hlen
    have hlen : p.bytes ≤ (s.buffers slot).length := Nat.not_lt.mp hlen
    obtain ⟨hmem, hid⟩ := placement_some hp
    have hsize := h.faithful.weight_length p hmem
    rw [hid] at hsize
    have hlength : ∀ bytes : Bytes, bytes.length = (s.buffers slot).length →
        ∀ i, (Function.update s.buffers slot bytes i).length = (s.buffers i).length := by
      intro bytes hbytes i
      by_cases his : i = slot
      · subst his; rw [Function.update_self, hbytes]
      · rw [Function.update_of_ne his]
    have hwhole : (weight id ++ (s.buffers slot).drop p.bytes).length = (s.buffers slot).length := by
      rw [List.length_append, List.length_drop]; omega
    split
    · rename_i data hdata
      obtain ⟨hd, -⟩ := h.cached_eq hdata
      rw [hid] at hd
      subst hd
      refine ⟨h.write hp hlen (h.experts.touch id) s.loads, rfl, rfl, rfl, hlength _ hwhole, ?_, ?_⟩
      · intro _; exact Function.update_self ..
      · intro ptr hptr n id' hh
        exact hh.write hptr hs.slot_free (h.experts.touch id) (fun b hb _ => hb) s.loads _
    · rename_i hmiss
      have hmisses : s.misses slot p = true := by simp [misses, hlen, hmiss]
      cases hans : (s.loadAnswer env slot p).1 with
      | error e =>
        have huntagged : s.resident slot = 0 := by
          rcases hs.load_safe with h0 | hok
          · exact h0
          · rw [hok p hp hmisses] at hans; cases hans
        have hbuf := hlength _ (h.faithful.load_length p hmem s.loads (s.buffers slot))
        refine ⟨⟨h.faithful, ?_, ?_, h.experts⟩, rfl, rfl, rfl, hbuf, nofun, ?_⟩
        · have hpos := List.length_pos_iff.mpr h.front
          rw [← hbuf 0] at hpos
          exact List.length_pos_iff.mp hpos
        · intro i hi
          have hne : i ≠ slot := by
            rintro rfl
            exact hi huntagged
          simpa [setSlot, placement, Function.update_of_ne hne] using h.tag i hi
        · intro ptr hptr n id' hh
          exact hh.write hptr hs.slot_free h.experts (fun b hb _ => hb) (s.loads + 1) _
      | ok u =>
        have hbytes : (s.loadAnswer env slot p).2 = weight id ++ (s.buffers slot).drop p.bytes :=
          hid ▸ h.faithful.load_bytes p hmem s.loads _ hlen hans
        have hput : (s.experts.put id (weight id)).Wf weight := h.experts.put id
        have hkeep : p.expert = true → ∀ b ∈ s.experts.store, .block b.addr ∈ held →
            b ∈ (s.experts.put id (weight id)).store := by
          intro he b hb hheld
          have hne : b.id ≠ id := hid ▸ h.uncached hmem he hmiss b hb
          refine ExpertCache.put_keeps (fun _ => ?_) hb hne
          obtain ⟨b', hb', haddr⟩ := hs.block_stays p hp hmisses he b.addr hheld
          rw [← hsize] at hb'
          have hsub := (s.experts.makeRoom_store (weight id).length).1.subset hb'
          rwa [List.inj_on_of_nodup_map h.experts.addr_nodup hsub hb haddr] at hb'
        have htake : ((weight id ++ (s.buffers slot).drop p.bytes).take p.bytes) = weight id := by
          rw [← hsize, List.take_left]
        simp only [hbytes, setSlot, Function.update_self, htake]
        split
        · rename_i he
          refine ⟨h.write hp hlen hput (s.loads + 1), rfl, rfl, rfl, hlength _ hwhole, ?_, ?_⟩
          · intro _; exact Function.update_self ..
          · intro ptr hptr n id' hh
            exact hh.write hptr hs.slot_free hput (hkeep he) (s.loads + 1) _
        · refine ⟨h.write hp hlen h.experts (s.loads + 1), rfl, rfl, rfl, hlength _ hwhole, ?_, ?_⟩
          · intro _; exact Function.update_self ..
          · intro ptr hptr n id' hh
            exact hh.write hptr hs.slot_free h.experts (fun b hb _ => hb) (s.loads + 1) _

/-! ## The pending task -/

/-- A task writes the inactive slot; one that is done has tagged it. -/
structure TaskOk (env : Loader) (s : Store) (t : PrefetchTask) : Prop where
  slot : t.slot = 1 - s.active
  buffer : s.buffers t.slot ≠ []
  load_safe : t.result = none → s.LoadSafe env t.slot t.id
  resident : t.result = some (.ok ()) → s.resident t.slot = t.id

structure Inv (env : Loader) (weight : TensorId → Bytes) (s : Store) : Prop where
  ok : s.Ok env weight
  task : ∀ t ∈ s.prefetchFut, TaskOk env s t

theorem configure_inv {plan : StoragePlan} (h : Faithful env weight (configure plan).placements) :
    (configure plan).Inv env weight := by
  refine ⟨⟨h, ?_, ?_, ExpertCache.init_wf weight _⟩, nofun⟩
  · intro he
    have hlen := congrArg List.length he
    simp [configure] at hlen
  · intro i hi
    exact absurd rfl hi

theorem Spares.nothing (h : s.LoadSafe env slot id) : s.Spares env [] slot id :=
  ⟨h, List.not_mem_nil, fun _ _ _ _ _ ha => absurd ha List.not_mem_nil⟩

theorem ne_nil_of_length {a b : Bytes} (h : a.length = b.length) (hb : b ≠ []) : a ≠ [] := by
  rw [← List.length_pos_iff] at hb ⊢
  omega

/-- A task that has not run leaves alone what it spares. -/
theorem complete_holds (h : s.Inv env weight) {held : List Ptr}
    (hs : ∀ t ∈ s.prefetchFut, t.result = none → s.Spares env held t.slot t.id) {ptr : Ptr} (hptr : ptr ∈ held) {n : Nat}
    {id' : TensorId} (hh : s.Holds weight (ptr, n) id') : (s.complete env).Holds weight (ptr, n) id' := by
  unfold complete
  split
  · rename_i slot id hfut
    exact (stageInto_spec h.ok (hs _ hfut rfl)).holds ptr hptr n id' hh
  · exact hh

theorem complete_inv (h : s.Inv env weight) :
    (s.complete env).Inv env weight ∧ (s.complete env).placements = s.placements ∧
      (s.complete env).active = s.active ∧ (s.complete env).prefetchFut.map (·.id) = s.prefetchFut.map (·.id) ∧
      ∀ t ∈ (s.complete env).prefetchFut, t.result ≠ none := by
  unfold complete
  split
  · rename_i slot id hfut
    have htask := h.task _ hfut
    have hspec := stageInto_spec h.ok (Spares.nothing (htask.load_safe rfl))
    refine ⟨⟨hspec.ok.frame rfl rfl rfl hspec.ok.experts, ?_⟩, hspec.placements, hspec.active, by rw [hfut]; rfl, ?_⟩
    · intro t ht
      obtain rfl := Option.some.inj ht
      refine ⟨?_, ne_nil_of_length (hspec.sizes slot) htask.buffer, nofun, fun hr => ?_⟩
      · exact htask.slot.trans (by rw [← hspec.active])
      · exact hspec.resident (Option.some.inj hr)
    · intro t ht
      obtain rfl := Option.some.inj ht
      exact nofun
  · rename_i hfut
    refine ⟨h, rfl, rfl, rfl, fun t ht hr => ?_⟩
    obtain ⟨slot, id, result⟩ := t
    exact hfut slot id (hr ▸ ht)

theorem prefetch_inv (h : s.Inv env weight) (hs : s.canPrefetch id = true → s.LoadSafe env (1 - s.active) id) :
    (s.prefetch id).Inv env weight := by
  unfold prefetch
  split
  · rename_i hcan
    refine ⟨h.ok.frame rfl rfl rfl h.ok.experts, fun t ht => ?_⟩
    obtain rfl := Option.some.inj ht
    refine ⟨rfl, ?_, fun _ => hs hcan, nofun⟩
    simp only [canPrefetch, Bool.and_eq_true, bne_iff_ne] at hcan
    by_cases hact : s.active = 0
    · simpa [hact] using hcan.1.1.1.2
    · have h1 : s.active = 1 := by omega
      simpa [h1] using h.ok.front
  · exact h

/-! ## `stage` -/

structure Settled (env : Loader) (weight : TensorId → Bytes) (s s' : Store) : Prop where
  ok : s'.Ok env weight
  idle : s'.prefetchFut = none
  placements : s'.placements = s.placements

theorem Settled.inv {s' : Store} (h : Settled env weight s s') : s'.Inv env weight :=
  ⟨h.ok, fun t ht => by rw [h.idle] at ht; cases ht⟩

theorem settle_idle (h : s.prefetchFut = none) : s.settle env = (.ok (), s) := by
  have hc : s.complete env = s := by simp [complete, h]
  simp [settle, hc, h]

theorem settle_spec (h : s.Inv env weight) :
    Settled env weight s (s.settle env).2 ∧
      ((s.settle env).1 = .ok () → ∀ t ∈ s.prefetchFut,
        (s.settle env).2.resident (1 - (s.settle env).2.active) = t.id ∧
          (s.settle env).2.buffers (1 - (s.settle env).2.active) ≠ []) := by
  obtain ⟨hinv, hpl, hact, hids, hdone⟩ := complete_inv h
  unfold settle
  split
  · rename_i slot id r hfut
    refine ⟨⟨hinv.ok.frame rfl rfl rfl hinv.ok.experts, rfl, hpl⟩, fun hr t ht => ?_⟩
    have htask := hinv.task _ hfut
    have hid : id = t.id := by
      have := hids
      rw [hfut, Option.mem_def.mp ht] at this
      exact Option.some.inj this
    obtain rfl : r = .ok () := hr
    have hslot : slot = 1 - (s.complete env).active := htask.slot
    refine ⟨?_, ?_⟩
    · show (s.complete env).resident _ = _
      rw [← hslot, htask.resident rfl, hid]
    · show (s.complete env).buffers _ ≠ _
      rw [← hslot]
      exact htask.buffer
  · rename_i hfut
    have hnone : s.prefetchFut = none := by
      cases hf : (s.complete env).prefetchFut with
      | none =>
        rw [hf] at hids
        exact Option.map_eq_none_iff.mp hids.symm
      | some t =>
        obtain ⟨slot, id, result⟩ := t
        cases result with
        | none => exact absurd rfl (hdone _ hf)
        | some r => exact absurd hf (hfut slot id r)
    exact ⟨⟨h.ok, hnone, rfl⟩, fun _ t ht => by rw [hnone] at ht; cases ht⟩

theorem Ok.flip (h : s.Ok env weight) : s.flip.Ok env weight := by
  unfold Store.flip
  split
  · exact h
  · exact h.frame rfl rfl rfl h.experts

theorem flip_holds {ptr : Ptr × Nat} {id' : TensorId} (hh : s.Holds weight ptr id') : s.flip.Holds weight ptr id' := by
  unfold Store.flip
  split
  · exact hh
  · exact hh

theorem flip_frame : s.flip.placements = s.placements ∧ s.flip.prefetchFut = s.prefetchFut := by
  unfold Store.flip
  split <;> exact ⟨rfl, rfl⟩

theorem flip_resident (hb : s.buffers (1 - s.active) ≠ []) (hr : s.resident (1 - s.active) = id) :
    s.flip.resident s.flip.active = id := by
  rw [Store.flip, if_neg hb]
  exact hr

/-- `stage(id)` finds the tensor in neither buffer, and loads it over the active one. -/
def reloads (env : Loader) (s : Store) (id : TensorId) : Prop :=
  s.prefetchFut.any (·.id == id) = false ∧ (s.settle env).2.resident (s.settle env).2.active ≠ id ∧
    ((s.settle env).2.buffers (1 - (s.settle env).2.active) ≠ [] →
      (s.settle env).2.resident (1 - (s.settle env).2.active) ≠ id)

theorem bringIn_spec (h : s.Inv env weight) {held : List Ptr} (hheld : held = [] ∨ s.prefetchFut = none)
    (hs : s.reloads env id → (s.settle env).2.Spares env held (s.settle env).2.active id) :
    Settled env weight s (s.bringIn env id).2 ∧
      ((s.bringIn env id).1 = .ok () → (s.bringIn env id).2.resident (s.bringIn env id).2.active = id) ∧
      ∀ ptr ∈ held, ∀ n id', s.Holds weight (ptr, n) id' → (s.bringIn env id).2.Holds weight (ptr, n) id' := by
  obtain ⟨hset, hres⟩ := settle_spec h
  have hsame : ∀ ptr ∈ held, ∀ n id', s.Holds weight (ptr, n) id' → (s.settle env).2.Holds weight (ptr, n) id' := by
    intro ptr hptr n id' hh
    rcases hheld with rfl | hidle
    · cases hptr
    · rw [settle_idle hidle]; exact hh
  have hflip : Settled env weight s (s.settle env).2.flip :=
    ⟨hset.ok.flip, flip_frame.2.trans hset.idle, flip_frame.1.trans hset.placements⟩
  unfold bringIn
  dsimp only
  split
  · rename_i hpend
    split
    · rename_i e he
      exact ⟨hset, nofun, hsame⟩
    · rename_i u hu
      obtain ⟨t, ht, hid⟩ : ∃ t ∈ s.prefetchFut, t.id = id := by simpa [Option.any_eq_true] using hpend
      obtain ⟨hr, hb⟩ := hres hu t ht
      exact ⟨hflip, fun _ => flip_resident hb (hr.trans hid), fun ptr hptr n id' hh => flip_holds (hsame ptr hptr n id' hh)⟩
  · rename_i hpend
    split
    · rename_i hact
      exact ⟨hset, fun _ => hact, hsame⟩
    · rename_i hact
      split
      · rename_i hother
        exact ⟨hflip, fun _ => flip_resident hother.1 hother.2,
          fun ptr hptr n id' hh => flip_holds (hsame ptr hptr n id' hh)⟩
      · rename_i hother
        have hspec := stageInto_spec hset.ok (hs ⟨by simpa using hpend, hact, fun hb hr => hother ⟨hb, hr⟩⟩)
        refine ⟨⟨hspec.ok, hspec.task.trans hset.idle, hspec.placements.trans hset.placements⟩, fun hr => ?_, ?_⟩
        · rw [hspec.active]
          exact hspec.resident hr
        · exact fun ptr hptr n id' hh => hspec.holds ptr hptr n id' (hsame ptr hptr n id' hh)

/-- What a slot's tag says, as a read. -/
theorem Ok.read_resident (h : s.Ok env weight) {p : StoragePlacement} {i : Fin 2} (hp : s.placement id = some p)
    (hr : s.resident i = id) : s.Holds weight (.slot i, p.bytes) id := by
  obtain ⟨hmem, hid⟩ := placement_some hp
  have hne : s.resident i ≠ 0 := by
    rw [hr, ← hid]
    exact h.faithful.id_ne_zero p hmem
  obtain ⟨q, hq, hlen, htake⟩ := h.tag i hne
  rw [hr] at hq htake
  obtain rfl : p = q := Option.some.inj (hp.symm.trans hq)
  simp [Holds, read, hlen, htake]

theorem stage_spec (h : s.Inv env weight) {held : List Ptr} (hheld : held = [] ∨ s.prefetchFut = none)
    (hs : s.reloads env id → (s.settle env).2.Spares env held (s.settle env).2.active id) :
    (s.stage env id).2.Inv env weight ∧ (s.stage env id).2.placements = s.placements ∧
      (∀ ptr ∈ held, ∀ n id', s.Holds weight (ptr, n) id' → (s.stage env id).2.Holds weight (ptr, n) id') ∧
      ∀ ptr, (s.stage env id).1 = .ok ptr →
        (s.stage env id).2.prefetchFut = none ∧ (s.stage env id).2.Holds weight ptr id := by
  unfold stage
  cases hp : s.placement id with
  | none => exact ⟨h, rfl, fun _ _ _ _ hh => hh, nofun⟩
  | some p =>
    obtain ⟨hset, hres, hholds⟩ := bringIn_spec h hheld hs
    have hp' : (s.bringIn env id).2.placement id = some p := by rw [placement, hset.placements]; exact hp
    dsimp only
    split
    · exact ⟨hset.inv, hset.placements, hholds, nofun⟩
    rename_i u hu
    have hslot := hset.ok.read_resident hp' (hres hu)
    split
    · rename_i b hb
      split
      · rename_i hne
        have hfind : (s.bringIn env id).2.experts.find id = some b := by
          split at hb
          · exact hb
          · cases hb
        have hbytes := hset.ok.experts.find_bytes hfind
        have hok : ({ (s.bringIn env id).2 with experts := (s.bringIn env id).2.experts.markHot id } : Store).Ok env weight :=
          hset.ok.frame rfl rfl rfl (hset.ok.experts.markHot id)
        refine ⟨⟨hok, fun t ht => ?_⟩, hset.placements, hholds, fun ptr hptr => ?_⟩
        · have hidle := hset.idle
          simp only at ht
          rw [hidle] at ht
          cases ht
        · obtain rfl := Except.ok.inj hptr
          refine ⟨hset.idle, ?_⟩
          have hat := (hok.experts.at?_eq (ExpertCache.find_some hfind).1)
          simp [Holds, read, hat, hbytes]
      · exact ⟨hset.inv, hset.placements, hholds, fun ptr hptr => by
          obtain rfl := Except.ok.inj hptr
          exact ⟨hset.idle, hslot⟩⟩
    · exact ⟨hset.inv, hset.placements, hholds, fun ptr hptr => by
        obtain rfl := Except.ok.inj hptr
        exact ⟨hset.idle, hslot⟩⟩

/-- `stage` answers with the active slot, or with a hot block. -/
theorem stage_ptr {ptr : Ptr × Nat} (h : (s.stage env id).1 = .ok ptr) :
    ptr.1 = .slot (s.stage env id).2.active ∨
      ∃ b ∈ (s.stage env id).2.experts.store, ptr.1 = .block b.addr ∧ (s.stage env id).2.experts.isHot b.id = true := by
  unfold stage at h ⊢
  cases hp : s.placement id with
  | none => rw [hp] at h; cases h
  | some p =>
    rw [hp] at h
    dsimp only at h ⊢
    cases hr : (s.bringIn env id).1 with
    | error e => rw [hr] at h; cases h
    | ok u =>
      rw [hr] at h
      cases hb : (if p.expert = true then (s.bringIn env id).2.experts.find id else none) with
      | none =>
        simp only [hb] at h ⊢
        obtain rfl := Except.ok.inj h
        exact Or.inl rfl
      | some b =>
        simp only [hb] at h ⊢
        by_cases hne : b.bytes ≠ []
        · rw [if_pos hne] at h ⊢
          obtain rfl := Except.ok.inj h
          have hfind : (s.bringIn env id).2.experts.find id = some b := by
            split at hb
            · exact hb
            · cases hb
          obtain ⟨hmem, rfl⟩ := ExpertCache.find_some hfind
          exact Or.inr ⟨b, hmem, rfl, ExpertCache.markHot_self⟩
        · rw [if_neg hne] at h ⊢
          obtain rfl := Except.ok.inj h
          exact Or.inl rfl

end Store

/-! ## Two weights -/

/-- Tensors 1 and 2 of one byte each, streamed through `slots` buffers. -/
def pairPlan (slots : Int) : StoragePlan :=
  ⟨[⟨1, "ln.weight", .mmap, true, false, 1, "m.gguf#ln.weight"⟩, ⟨2, "ln.bias", .mmap, true, false, 1, "m.gguf#ln.bias"⟩],
    [⟨1, 0, 1⟩, ⟨2, 0, 1⟩], 1, 2, 1, slots, 0, 0, true⟩

def pairWeight (id : TensorId) : Bytes := [id.toUInt8]

/-- Loads that succeed. -/
def pairLoader : Loader := fun _ id _ n buf => (.ok (), if n ≤ buf.length then pairWeight id ++ buf.drop 1 else buf)

theorem pairLoader_ok {ps : List StoragePlacement} (hps : ∀ p ∈ ps, p.bytes = 1 ∧ p.tensorId ≠ 0) :
    Faithful pairLoader pairWeight ps := by
  refine ⟨fun p hp => (hps p hp).2, fun p hp => (hps p hp).1.symm, fun p hp k buf => ?_, fun p hp k buf hlen _ => ?_⟩
  · dsimp only [pairLoader, pairWeight]
    split
    · rename_i hlen
      rw [(hps p hp).1] at hlen
      simp
      omega
    · rfl
  · dsimp only [pairLoader]
    rw [if_pos hlen, (hps p hp).1]

theorem pairLoader_faithful (slots : Int) :
    Faithful pairLoader pairWeight (Store.configure (pairPlan slots)).placements := by
  have hplaced : (Store.configure (pairPlan slots)).placements = (pairPlan 0).placements.reverse := rfl
  rw [hplaced]
  exact pairLoader_ok (by decide)

end Uaii.Storage
