/-
  Uaii.Planner.MemoryDisjoint — the tensors that `build_memory_reuse_plan` puts in one
  slot.

  A slot goes back to the free list with the last use of its newest tenant, and is taken
  again only by a tensor whose first use comes after it. Weights and graph inputs and
  outputs never enter the free list.

  Proved: two tensors of one slot are activations whose uses do not overlap
  (`slotOf_disjoint`).
-/

import Mathlib.Data.List.Nodup
import Uaii.Lib.Lists
import Uaii.Planner.MemoryPlan

namespace Uaii.Planner

open Uaii.Ir

/-- Weights and graph inputs and outputs have slots of their own. -/
def TensorLifetime.pinned (life : TensorLifetime) : Bool := life.isWeight || life.isGraphIo

/-- Both are activations, and `a` is last used before `b` is first used. -/
def Before (lives : List TensorLifetime) (a b : TensorId) : Prop :=
  ∀ la ∈ lives, la.tensorId = a → ∀ lb ∈ lives, lb.tensorId = b →
    la.pinned = false ∧ lb.pinned = false ∧ la.lastUse < lb.firstUse

/-- Tenants of a slot follow each other, and a free slot's tenants are done at `freeAfter`. -/
structure Tenancy (lives : List TensorLifetime) (s : Slots) : Prop where
  tenants : ∀ (i : Nat) (slot : BufferSlot), s.slots[i]? = some slot → slot.tenants.Pairwise (Before lives)
  free : ∀ f ∈ s.freeList, ∃ slot, s.slots[f.slotId]? = some slot ∧
    ∀ u ∈ slot.tenants, ∀ l ∈ lives, l.tensorId = u → l.pinned = false ∧ l.lastUse ≤ f.freeAfter
  free_nodup : (s.freeList.map (·.slotId)).Nodup

section Place

variable {lives : List TensorLifetime} {s : Slots} {life : TensorLifetime}

theorem newSlot_tenancy (h : Tenancy lives s) : Tenancy lives (s.newSlot life) := by
  refine ⟨fun i slot hi => ?_, fun f hf => ?_, h.free_nodup⟩
  · rcases getElem?_snoc hi with hold | ⟨-, rfl⟩
    · exact h.tenants i slot hold
    · exact List.pairwise_singleton _ _
  · obtain ⟨slot, hslot, hdone⟩ := h.free f hf
    obtain ⟨hlt, -⟩ := List.getElem?_eq_some_iff.mp hslot
    exact ⟨slot, (List.getElem?_append_left hlt).trans hslot, hdone⟩

theorem dedicate_tenancy (h : Tenancy lives s) : Tenancy lives (s.dedicate life) := by
  unfold Slots.dedicate
  split
  · exact newSlot_tenancy h
  · exact h

/-- The lifetime being placed is one of the list's, which has one for a tensor. -/
structure Placed (lives : List TensorLifetime) (life : TensorLifetime) : Prop where
  unique : ∀ l ∈ lives, l.tensorId = life.tensorId → l = life
  activation : life.pinned = false
  ordered : life.firstUse ≤ life.lastUse

theorem shareSlot_tenancy (h : Tenancy lives s) (hlife : Placed lives life) {i : Nat} {f : FreeSlot}
    (hf : s.freeList[i]? = some f) (hfree : f.freeAfter < life.firstUse) : Tenancy lives (s.shareSlot life i f.slotId) := by
  obtain ⟨shared, hshared, hdone⟩ := h.free f (List.mem_of_getElem? hf)
  have hself : ∀ l ∈ lives, l.tensorId = life.tensorId → l.pinned = false ∧ l.lastUse ≤ life.lastUse := by
    intro l hl hid
    obtain rfl := hlife.unique l hl hid
    exact ⟨hlife.activation, Int.le_refl _⟩
  have hget : ∀ j, (s.shareSlot life i f.slotId).slots[j]? = (s.slots[j]?).map fun slot =>
      if f.slotId = j then
        { slot with tenants := slot.tenants ++ [life.tensorId]
                    bytes := if slot.bytes < life.bytes then life.bytes else slot.bytes }
      else slot := by
    intro j
    simp only [Slots.shareSlot, List.getElem?_modify]
    by_cases hj : f.slotId = j
    · simp [hj]
    · simp [hj]
  have hperm : (f :: s.freeList.eraseIdx i).Perm s.freeList := by
    obtain ⟨hi, rfl⟩ := List.getElem?_eq_some_iff.mp hf
    exact List.getElem_cons_eraseIdx_perm hi
  have hids : (f.slotId :: (s.freeList.eraseIdx i).map (·.slotId)).Nodup := by
    rw [← List.map_cons (f := fun f : FreeSlot => f.slotId)]
    exact (hperm.map _).nodup_iff.mpr h.free_nodup
  refine ⟨fun j slot hj => ?_, fun e he => ?_, ?_⟩
  · rw [hget j] at hj
    obtain ⟨old, hold, rfl⟩ := Option.map_eq_some_iff.mp hj
    by_cases hjs : f.slotId = j
    · subst hjs
      obtain rfl : shared = old := Option.some.inj (hshared.symm.trans hold)
      rw [if_pos rfl]
      refine List.pairwise_append.mpr ⟨h.tenants _ _ hold, List.pairwise_singleton _ _, ?_⟩
      intro u hu v hv la hla hua lb hlb hvb
      obtain rfl := List.mem_singleton.mp hv
      obtain ⟨hact, hlast⟩ := hdone u hu la hla hua
      obtain rfl := hlife.unique lb hlb hvb
      exact ⟨hact, hlife.activation, by omega⟩
    · rw [if_neg hjs]
      exact h.tenants j old hold
  · rcases List.mem_append.mp he with he | he
    · have hne : f.slotId ≠ e.slotId := by
        intro heq
        exact (List.nodup_cons.mp hids).1 (heq ▸ List.mem_map_of_mem he)
      obtain ⟨slot, hslot, hd⟩ := h.free e (hperm.mem_iff.mp (List.mem_cons_of_mem _ he))
      refine ⟨slot, ?_, hd⟩
      rw [hget, hslot, Option.map_some, if_neg hne]
    · obtain rfl := List.mem_singleton.mp he
      refine ⟨_, (hget _).trans (by rw [hshared]; rfl), ?_⟩
      intro u hu l hl hid
      simp only [if_true] at hu
      rcases List.mem_append.mp hu with hu | hu
      · obtain ⟨hact, hlast⟩ := hdone u hu l hl hid
        have hordered := hlife.ordered
        exact ⟨hact, Int.le_of_lt (Int.lt_of_le_of_lt hlast (Int.lt_of_lt_of_le hfree hordered))⟩
      · exact hself l hl (hid.trans (List.mem_singleton.mp hu))
  · simp only [Slots.shareSlot, List.map_append, List.map_cons, List.map_nil]
    exact (List.perm_append_singleton _ _).nodup_iff.mpr hids

theorem place_tenancy (h : Tenancy lives s) (hlife : Placed lives life) : Tenancy lives (s.place life) := by
  unfold Slots.place
  cases hfind : s.freeList.findIdx? fun f => f.freeAfter < life.firstUse ∧ life.bytes ≤ f.bytes with
  | some i =>
    obtain ⟨hi, hfit, -⟩ := List.findIdx?_eq_some_iff_getElem.mp hfind
    have hget : s.freeList[i]? = some s.freeList[i] := List.getElem?_eq_getElem hi
    simp only [hget, Option.map_some, Option.getD_some]
    exact shareSlot_tenancy h hlife hget (of_decide_eq_true hfit).1
  | none =>
    have hnew : Tenancy lives (s.newSlot life) := newSlot_tenancy h
    refine ⟨hnew.tenants, fun f hf => ?_, ?_⟩
    · rcases List.mem_append.mp hf with hf | hf
      · exact hnew.free f hf
      · obtain rfl := List.mem_singleton.mp hf
        refine ⟨_, List.getElem?_concat_length, fun u hu l hl hid => ?_⟩
        obtain rfl := hlife.unique l hl (hid.trans (List.mem_singleton.mp hu))
        exact ⟨hlife.activation, Int.le_refl _⟩
    · -- the new slot's number is the number of slots so far
      have hlt : ∀ f ∈ s.freeList, f.slotId < s.slots.length := by
        intro f hf
        obtain ⟨slot, hslot, -⟩ := h.free f hf
        exact (List.getElem?_eq_some_iff.mp hslot).1
      simp only [Slots.newSlot, List.map_append, List.map_cons, List.map_nil]
      rw [List.nodup_append]
      refine ⟨h.free_nodup, List.nodup_singleton _, fun a ha b hb => ?_⟩
      obtain ⟨f, hf, rfl⟩ := List.mem_map.mp ha
      obtain rfl := List.mem_singleton.mp hb
      exact Nat.ne_of_lt (hlt f hf)

theorem assignSlots_tenancy (hunique : (lives.map (·.tensorId)).Nodup) (hordered : ∀ l ∈ lives, l.firstUse ≤ l.lastUse) :
    Tenancy lives (assignSlots lives) := by
  have hdedicate : ∀ (ls : List TensorLifetime) (s : Slots), Tenancy lives s → Tenancy lives (ls.foldl Slots.dedicate s) := by
    intro ls
    induction ls with
    | nil => intro s h; exact h
    | cons l ls ih => intro s h; exact ih _ (dedicate_tenancy h)
  have hplace : ∀ (ls : List TensorLifetime) (s : Slots), (∀ l ∈ ls, Placed lives l) → Tenancy lives s →
      Tenancy lives (ls.foldl Slots.place s) := by
    intro ls
    induction ls with
    | nil => intro s _ h; exact h
    | cons l ls ih =>
      intro s hls h
      exact ih _ (fun m hm => hls m (List.mem_cons_of_mem _ hm)) (place_tenancy h (hls l List.mem_cons_self))
  refine hplace _ _ (fun l hl => ?_) (hdedicate _ _ ⟨by simp, by simp, List.nodup_nil⟩)
  obtain ⟨hmem, hact⟩ := List.mem_filter.mp ((List.mem_insertionSort _).mp hl)
  refine ⟨fun m hm hid => List.inj_on_of_nodup_map hunique hm hmem hid, ?_, hordered l hmem⟩
  simpa [TensorLifetime.pinned] using hact

end Place

/-! ## The lifetimes of a graph -/

section Lifetimes

variable {R : Type}

theorem lifetimes_ordered (h : HashOrder) (g : Graph R) (ops : List PlannedOp) :
    ∀ life ∈ lifetimes h g ops, life.firstUse ≤ life.lastUse := by
  have hupdate : ∀ (f : TensorLifetime → TensorLifetime), (∀ l, l.firstUse ≤ l.lastUse → (f l).firstUse ≤ (f l).lastUse) →
      ∀ (ids : List TensorId) (lives : List TensorLifetime), (∀ l ∈ lives, l.firstUse ≤ l.lastUse) →
        ∀ l ∈ ids.foldl (updateLife f) lives, l.firstUse ≤ l.lastUse := by
    intro f hf ids
    induction ids with
    | nil => intro lives hl; exact hl
    | cons id ids ih =>
      intro lives hl
      refine ih _ fun l hmem => ?_
      obtain ⟨old, hold, rfl⟩ := List.mem_map.mp hmem
      split
      · exact hf old (hl old hold)
      · exact hl old hold
  have hin : ∀ oi l, TensorLifetime.firstUse l ≤ l.lastUse → (touchInput oi l).firstUse ≤ (touchInput oi l).lastUse := by
    intro oi l hl
    simp only [touchInput]
    split <;> split <;> omega
  have hout : ∀ oi l, TensorLifetime.firstUse l ≤ l.lastUse → (touchOutput oi l).firstUse ≤ (touchOutput oi l).lastUse := by
    intro oi l hl
    simp only [touchOutput]
    split <;> split <;> omega
  have hfold : ∀ (xs : List (PlannedOp × Nat)) (lives : List TensorLifetime), (∀ l ∈ lives, l.firstUse ≤ l.lastUse) →
      ∀ l ∈ xs.foldl touchOp lives, l.firstUse ≤ l.lastUse := by
    intro xs
    induction xs with
    | nil => intro lives hl; exact hl
    | cons x xs ih => intro lives hl; exact ih _ (hupdate _ (hout x.2) _ _ (hupdate _ (hin x.2) _ _ hl))
  refine hfold _ _ fun l hl => ?_
  obtain ⟨id, -, hid⟩ := List.mem_filterMap.mp hl
  obtain ⟨t, -, rfl⟩ := Option.map_eq_some_iff.mp hid
  simp only [initialLife]
  split <;> omega

/-- A tensor has one lifetime. -/
theorem lifetimes_nodup (h : HashOrder) (g : Graph R) (ops : List PlannedOp) :
    ((lifetimes h g ops).map (·.tensorId)).Nodup := by
  have hids : (lifetimes h g ops).map (·.tensorId) =
      ((h.walk (g.tensors.map (·.id)).dedup).filterMap fun id => (g.byId id).map (initialLife g ops.length)).map
        (·.tensorId) := by
    have hkey := congrArg (List.map Prod.fst) (lifetimes_key h g ops)
    rw [List.map_map, List.map_map] at hkey
    exact hkey
  rw [hids, List.map_filterMap]
  have hwalk : (h.walk (g.tensors.map (·.id)).dedup).Nodup := (h.perm _).nodup_iff.mpr (List.nodup_dedup _)
  refine List.Nodup.filterMap (fun a b x hx hy => ?_) hwalk
  have hof : ∀ id, x ∈ Option.map (·.tensorId) ((g.byId id).map (initialLife g ops.length)) → x = id := by
    intro id hx
    obtain ⟨l, hl, rfl⟩ := Option.map_eq_some_iff.mp hx
    obtain ⟨t, ht, rfl⟩ := Option.map_eq_some_iff.mp hl
    exact byId_id ht
  exact (hof a hx).symm.trans (hof b hy)

theorem byId_eq {g : Graph R} (hids : (g.tensors.map (·.id)).Nodup) {t : Tensor} (ht : t ∈ g.tensors) :
    g.byId t.id = some t :=
  Lists.find?_reverse_of_nodup hids ht

/-- Where ids are distinct, a lifetime has its tensor's flags. -/
theorem lifetimes_weight (h : HashOrder) (g : Graph R) (ops : List PlannedOp) (hids : (g.tensors.map (·.id)).Nodup)
    {t : Tensor} (ht : t ∈ g.tensors) : ∃ life ∈ lifetimes h g ops, life.tensorId = t.id ∧ life.isWeight = t.isWeight := by
  have hwalk : t.id ∈ h.walk (g.tensors.map (·.id)).dedup :=
    (h.perm _).mem_iff.mpr (List.mem_dedup.mpr (List.mem_map_of_mem ht))
  have hmem : (initialLife g ops.length t).key ∈ (lifetimes h g ops).map TensorLifetime.key := by
    rw [lifetimes_key]
    exact List.mem_map_of_mem (List.mem_filterMap.mpr ⟨t.id, hwalk, by rw [byId_eq hids ht]; rfl⟩)
  obtain ⟨life, hlife, heq⟩ := List.mem_map.mp hmem
  simp only [TensorLifetime.key, Prod.mk.injEq] at heq
  exact ⟨life, hlife, heq.1, heq.2.2.1⟩

/-- What one operator does to a lifetime. -/
def touchLife (life : TensorLifetime) (op : PlannedOp × Nat) : TensorLifetime :=
  let life := if life.tensorId ∈ op.1.inputs then touchInput op.2 life else life
  if life.tensorId ∈ op.1.outputs then touchOutput op.2 life else life

theorem touchInput_touchInput (oi : Nat) (life : TensorLifetime) : touchInput oi (touchInput oi life) = touchInput oi life := by
  simp only [touchInput, TensorLifetime.mk.injEq, true_and, and_true]
  refine ⟨?_, ?_⟩ <;> grind

theorem touchOutput_touchOutput (oi : Nat) (life : TensorLifetime) :
    touchOutput oi (touchOutput oi life) = touchOutput oi life := by
  simp only [touchOutput, TensorLifetime.mk.injEq, true_and, and_true]
  refine ⟨?_, ?_⟩ <;> grind

theorem foldl_updateLife {f : TensorLifetime → TensorLifetime} (hid : ∀ l, (f l).tensorId = l.tensorId)
    (hff : ∀ l, f (f l) = f l) : ∀ (ids : List TensorId) (lives : List TensorLifetime),
      ids.foldl (updateLife f) lives = lives.map fun l => if l.tensorId ∈ ids then f l else l := by
  intro ids
  induction ids with
  | nil => intro lives; simp
  | cons id ids ih =>
    intro lives
    rw [List.foldl_cons, ih, updateLife, List.map_map]
    refine List.map_congr_left fun l _ => ?_
    simp only [Function.comp, List.mem_cons]
    by_cases he : l.tensorId = id
    · simp only [he, if_true, hid, true_or]
      split
      · exact hff l
      · rfl
    · simp only [he, if_false, false_or]

theorem touchOp_eq (lives : List TensorLifetime) (op : PlannedOp × Nat) : touchOp lives op = lives.map (touchLife · op) := by
  dsimp only [touchOp]
  rw [foldl_updateLife (f := touchInput op.2) (fun _ => rfl) (touchInput_touchInput op.2),
    foldl_updateLife (f := touchOutput op.2) (fun _ => rfl) (touchOutput_touchOutput op.2), List.map_map]
  rfl

theorem foldl_touchOp : ∀ (xs : List (PlannedOp × Nat)) (lives : List TensorLifetime),
    xs.foldl touchOp lives = lives.map fun l => xs.foldl touchLife l := by
  intro xs
  induction xs with
  | nil => intro lives; simp
  | cons x xs ih =>
    intro lives
    rw [List.foldl_cons, ih, touchOp_eq, List.map_map]
    rfl

theorem touchLife_id (life : TensorLifetime) (op : PlannedOp × Nat) : (touchLife life op).tensorId = life.tensorId := by
  unfold touchLife
  dsimp only
  split <;> split <;> rfl

/-- A tensor that operator `k` touches is in use at `k`, and in use since then it stays so. -/
theorem touchLife_covers {life : TensorLifetime} {op : PlannedOp} {k : Nat} (hk : life.firstUse ≤ k) :
    (touchLife life (op, k)).firstUse ≤ k ∧
      (life.tensorId ∈ op.inputs ∨ life.tensorId ∈ op.outputs →
        0 ≤ (touchLife life (op, k)).firstUse ∧ (k : Int) ≤ (touchLife life (op, k)).lastUse) ∧
      (0 ≤ life.firstUse → (touchLife life (op, k)).firstUse = life.firstUse) ∧
      life.lastUse ≤ (touchLife life (op, k)).lastUse := by
  by_cases hin : life.tensorId ∈ op.inputs
  · by_cases hout : life.tensorId ∈ op.outputs
    · simp only [touchLife, touchInput, touchOutput, hin, hout, if_true]
      refine ⟨?_, fun _ => ⟨?_, ?_⟩, fun _ => ?_, ?_⟩ <;> grind
    · simp only [touchLife, touchInput, hin, hout, if_true, if_false]
      refine ⟨?_, fun _ => ⟨?_, ?_⟩, fun _ => ?_, ?_⟩ <;> grind
  · by_cases hout : life.tensorId ∈ op.outputs
    · simp only [touchLife, touchOutput, hin, hout, if_true, if_false]
      refine ⟨?_, fun _ => ⟨?_, ?_⟩, fun _ => ?_, ?_⟩ <;> grind
    · simp only [touchLife, hin, hout, if_false]
      exact ⟨hk, by simp, fun _ => trivial, Int.le_refl _⟩

theorem foldl_touchLife_covers : ∀ (xs : List PlannedOp) (k : Nat) (life : TensorLifetime), life.firstUse ≤ k →
    (0 ≤ life.firstUse → ((xs.zipIdx k).foldl touchLife life).firstUse = life.firstUse) ∧
      life.lastUse ≤ ((xs.zipIdx k).foldl touchLife life).lastUse ∧
      ∀ i op, xs[i]? = some op → life.tensorId ∈ op.inputs ∨ life.tensorId ∈ op.outputs →
        ((xs.zipIdx k).foldl touchLife life).firstUse ≤ (k + i : Nat) ∧
          ((k + i : Nat) : Int) ≤ ((xs.zipIdx k).foldl touchLife life).lastUse := by
  intro xs
  induction xs with
  | nil => intro k life _; exact ⟨fun _ => rfl, Int.le_refl _, by simp⟩
  | cons x xs ih =>
    intro k life hk
    obtain ⟨hfirst, htouch, hkeep, hlast⟩ := @touchLife_covers life x k hk
    obtain ⟨ihkeep, ihlast, ihcover⟩ := ih (k + 1) (touchLife life (x, k)) (by omega)
    rw [List.zipIdx_cons, List.foldl_cons]
    refine ⟨fun h0 => ?_, by omega, fun i op hi hop => ?_⟩
    · rw [ihkeep (by rw [hkeep h0]; exact h0), hkeep h0]
    · cases i with
      | zero =>
        obtain rfl : x = op := by simpa using hi
        obtain ⟨h0, hle⟩ := htouch hop
        rw [ihkeep h0]
        exact ⟨by omega, by omega⟩
      | succ i =>
        have hcover := ihcover i op (by simpa using hi) (by rw [touchLife_id]; exact hop)
        rw [show k + (i + 1) = k + 1 + i by omega]
        exact hcover

/-- A tensor is in use at every operator that reads or writes it. -/
theorem lifetimes_cover (h : HashOrder) (g : Graph R) (ops : List PlannedOp) {life : TensorLifetime}
    (hlife : life ∈ lifetimes h g ops) {i : Nat} {op : PlannedOp} (hi : ops[i]? = some op)
    (hop : life.tensorId ∈ op.inputs ∨ life.tensorId ∈ op.outputs) : life.firstUse ≤ i ∧ (i : Int) ≤ life.lastUse := by
  unfold lifetimes at hlife
  rw [foldl_touchOp] at hlife
  obtain ⟨base, hbase, rfl⟩ := List.mem_map.mp hlife
  have hid : ∀ (xs : List (PlannedOp × Nat)) (l : TensorLifetime), (xs.foldl touchLife l).tensorId = l.tensorId := by
    intro xs
    induction xs with
    | nil => intro l; rfl
    | cons x xs ih => intro l; rw [List.foldl_cons, ih, touchLife_id]
  have hfirst : base.firstUse ≤ (0 : Nat) := by
    obtain ⟨id, -, he⟩ := List.mem_filterMap.mp hbase
    obtain ⟨t, -, rfl⟩ := Option.map_eq_some_iff.mp he
    simp only [initialLife]
    split <;> omega
  rw [hid] at hop
  have hcover := (foldl_touchLife_covers ops 0 base hfirst).2.2 i op hi hop
  rwa [Nat.zero_add] at hcover

/-- Two tenants of a slot are used one after the other. -/
theorem tenants_disjoint (h : HashOrder) (g : Graph R) (ops : List PlannedOp) {a b : TensorId} {sid : Nat} {slot : BufferSlot}
    (hslot : (assignSlots (lifetimes h g ops)).slots[sid]? = some slot) (hne : a ≠ b) (ha : a ∈ slot.tenants)
    (hb : b ∈ slot.tenants) : Before (lifetimes h g ops) a b ∨ Before (lifetimes h g ops) b a := by
  have hten := assignSlots_tenancy (lifetimes_nodup h g ops) (lifetimes_ordered h g ops)
  have hpair := List.pairwise_iff_getElem.mp (hten.tenants sid slot hslot)
  obtain ⟨i, hi, rfl⟩ := List.mem_iff_getElem.mp ha
  obtain ⟨j, hj, rfl⟩ := List.mem_iff_getElem.mp hb
  rcases Nat.lt_trichotomy i j with hij | rfl | hij
  · exact Or.inl (hpair i j hi hj hij)
  · exact absurd rfl hne
  · exact Or.inr (hpair j i hj hi hij)

theorem slotOf_disjoint (h : HashOrder) (g : Graph R) (ops : List PlannedOp) {a b : TensorId} {sid : Nat} (hne : a ≠ b)
    (ha : (buildMemoryReusePlan h g ops).slotOf a = some sid) (hb : (buildMemoryReusePlan h g ops).slotOf b = some sid) :
    Before (lifetimes h g ops) a b ∨ Before (lifetimes h g ops) b a := by
  have htenant : ∀ id, (buildMemoryReusePlan h g ops).slotOf id = some sid →
      ∃ slot, (assignSlots (lifetimes h g ops)).slots[sid]? = some slot ∧ id ∈ slot.tenants := by
    intro id hid
    obtain ⟨e, he, rfl⟩ := Option.map_eq_some_iff.mp hid
    obtain ⟨slot, hslot, hmem⟩ := (buildMemoryReusePlan_ok h g ops).mapped e (List.mem_of_find?_eq_some he)
    have heid : e.1 = id := by simpa using List.find?_some he
    exact ⟨slot, hslot, heid ▸ hmem⟩
  obtain ⟨slot, hslot, hamem⟩ := htenant a ha
  obtain ⟨slot', hslot', hbmem⟩ := htenant b hb
  obtain rfl : slot = slot' := Option.some.inj (hslot.symm.trans hslot')
  exact tenants_disjoint h g ops hslot hne hamem hbmem

/-- A tensor's slot is its own from one of its uses to another. -/
theorem slotOf_ne_of_live (h : HashOrder) (g : Graph R) (ops : List PlannedOp) {x u : TensorId}
    (hx : x ∈ g.tensors.map (·.id)) (hu : u ∈ g.tensors.map (·.id)) (hne : u ≠ x) {i j k : Nat} {a b c : PlannedOp}
    (ha : ops[i]? = some a) (hax : x ∈ a.inputs ∨ x ∈ a.outputs) (hb : ops[j]? = some b)
    (hbx : x ∈ b.inputs ∨ x ∈ b.outputs) (hc : ops[k]? = some c) (hcu : u ∈ c.inputs ∨ u ∈ c.outputs) (hik : i ≤ k)
    (hkj : k ≤ j) : (buildMemoryReusePlan h g ops).slotOf u ≠ (buildMemoryReusePlan h g ops).slotOf x := by
  intro he
  obtain ⟨tx, htx, rfl⟩ := List.mem_map.mp hx
  obtain ⟨tu, htu, rfl⟩ := List.mem_map.mp hu
  obtain ⟨sid, slot, hsid, -, -⟩ := slotOf_tensor h g ops htx
  obtain ⟨lx, hlx, hlxid⟩ := (lifetimes_bytes h g ops).2 tx htx
  obtain ⟨lu, hlu, hluid⟩ := (lifetimes_bytes h g ops).2 tu htu
  have hfirst := (lifetimes_cover h g ops hlx ha (by rw [hlxid]; exact hax)).1
  have hlast := (lifetimes_cover h g ops hlx hb (by rw [hlxid]; exact hbx)).2
  have huse := lifetimes_cover h g ops hlu hc (by rw [hluid]; exact hcu)
  rcases slotOf_disjoint h g ops hne (he.trans hsid) hsid with hbefore | hbefore
  · have hlt := (hbefore lu hlu hluid lx hlx hlxid).2.2
    omega
  · have hlt := (hbefore lx hlx hlxid lu hlu hluid).2.2
    omega

end Lifetimes

end Uaii.Planner
