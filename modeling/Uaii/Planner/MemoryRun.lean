/-
  Uaii.Planner.MemoryRun — the plan run in the slots of `build_memory_reuse_plan`.

  `Session::allocate_all_tensors` gives every tensor the memory of its slot. Here a slot
  is one cell, and an operator is whatever it computes from the values it reads.

  Proved: the slots partition the tensors, each is as large as its tenants, and weights
  and graph inputs and outputs are alone in theirs (`SlotsOfTensors`); where operators
  read activations that operators before them have written, they read from the slots
  what they read from a cell a tensor, and graph outputs end up the same
  (`reuse_refines`).
-/

import Mathlib.Data.List.Perm.Basic
import Uaii.Lib.Storage
import Uaii.Planner.MemoryDisjoint

namespace Uaii.Planner

open Uaii.Ir Dataflow Dataflow.Cells

/-! ## Every tensor is the tenant of one slot -/

section Tenants

variable {bytesOf : TensorId → Nat} {s : Slots} {life : TensorLifetime}

/-- The tenants of all slots. -/
def Slots.tenants (s : Slots) : List TensorId := s.slots.flatMap (·.tenants)

theorem newSlot_tenants (s : Slots) (life : TensorLifetime) : (s.newSlot life).tenants = s.tenants ++ [life.tensorId] := by
  simp [Slots.tenants, Slots.newSlot]

theorem shareSlot_tenants {i sid : Nat} (hsid : sid < s.slots.length) :
    (s.shareSlot life i sid).tenants.Perm (s.tenants ++ [life.tensorId]) := by
  simp only [Slots.tenants, Slots.shareSlot]
  have hsplit : s.slots = s.slots.take sid ++ s.slots[sid] :: s.slots.drop (sid + 1) := by
    rw [List.getElem_cons_drop, List.take_append_drop]
  rw [List.modify_eq_take_cons_drop hsid]
  conv_rhs => rw [hsplit]
  simp only [List.flatMap_append, List.flatMap_cons, List.append_assoc]
  refine List.Perm.append_left _ (List.Perm.append_left _ ?_)
  exact List.perm_append_comm

theorem place_tenants (h : SlotsOk bytesOf s) (life : TensorLifetime) :
    (s.place life).tenants.Perm (s.tenants ++ [life.tensorId]) := by
  unfold Slots.place
  cases hfind : s.freeList.findIdx? fun f => f.freeAfter < life.firstUse ∧ life.bytes ≤ f.bytes with
  | some i =>
    obtain ⟨hi, -, -⟩ := List.findIdx?_eq_some_iff_getElem.mp hfind
    have hget : s.freeList[i]? = some s.freeList[i] := List.getElem?_eq_getElem hi
    obtain ⟨slot, hslot, -⟩ := h.free s.freeList[i] (List.getElem_mem hi)
    simp only [hget, Option.map_some, Option.getD_some]
    exact shareSlot_tenants (List.getElem?_eq_some_iff.mp hslot).1
  | none => exact .of_eq (newSlot_tenants s life)

theorem dedicate_tenants (s : Slots) (life : TensorLifetime) :
    (s.dedicate life).tenants = s.tenants ++ if life.isWeight || life.isGraphIo then [life.tensorId] else [] := by
  unfold Slots.dedicate
  split
  · exact newSlot_tenants s life
  · simp

theorem foldl_dedicate_tenants : ∀ (lives : List TensorLifetime) (s : Slots),
    (lives.foldl Slots.dedicate s).tenants =
      s.tenants ++ (lives.filter fun life => life.isWeight || life.isGraphIo).map (·.tensorId) := by
  intro lives
  induction lives with
  | nil => intro s; simp
  | cons life lives ih =>
    intro s
    rw [List.foldl_cons, ih, dedicate_tenants, List.filter_cons]
    split <;> simp

theorem foldl_place_tenants : ∀ (lives : List TensorLifetime) (s : Slots), SlotsOk bytesOf s →
    (∀ life ∈ lives, life.bytes = bytesOf life.tensorId) →
      (lives.foldl Slots.place s).tenants.Perm (s.tenants ++ lives.map (·.tensorId)) := by
  intro lives
  induction lives with
  | nil => intro s _ _; simp
  | cons life lives ih =>
    intro s h hb
    have hstep := place_tenants h life
    have hrest := ih (s.place life) (place_ok h (hb life List.mem_cons_self)) fun l hl => hb l (List.mem_cons_of_mem _ hl)
    rw [List.foldl_cons]
    refine hrest.trans ?_
    have happend := hstep.append_right (lives.map (·.tensorId))
    simpa using happend

theorem assignSlots_tenants {lives : List TensorLifetime} (hb : ∀ life ∈ lives, life.bytes = bytesOf life.tensorId) :
    (assignSlots lives).tenants.Perm (lives.map (·.tensorId)) := by
  have hempty : SlotsOk bytesOf ⟨[], [], []⟩ := ⟨by simp, by simp, by simp, by simp, by simp⟩
  have hdedicated : SlotsOk bytesOf (lives.foldl Slots.dedicate ⟨[], [], []⟩) := fold_ok (fun s life => dedicate_ok) _ _ hempty hb
  have hplaced : ∀ life ∈ activations lives, life.bytes = bytesOf life.tensorId := by
    intro life hlife
    exact hb life (List.mem_filter.mp ((List.mem_insertionSort _).mp hlife)).1
  have hsort : (activations lives).Perm (lives.filter fun life => !(life.isWeight || life.isGraphIo)) := by
    simp only [activations, Bool.not_or]
    exact List.perm_insertionSort _ _
  refine (foldl_place_tenants _ _ hdedicated hplaced).trans ?_
  rw [foldl_dedicate_tenants]
  refine (List.Perm.append_left _ (hsort.map _)).trans ?_
  rw [show (Slots.tenants ⟨[], [], []⟩) = [] from rfl, List.nil_append, ← List.map_append]
  exact (List.filter_append_perm _ _).map _

end Tenants

/-! ## The slots of a graph -/

section Graph

variable {R : Type} {g : Graph R}

/-- Neither a weight nor a graph input or output. -/
def Activation (g : Graph R) (id : TensorId) : Prop :=
  ∃ t ∈ g.tensors, t.id = id ∧ t.isWeight = false ∧ id ∉ g.inputs ∧ id ∉ g.outputs

instance (g : Graph R) (id : TensorId) : Decidable (Activation g id) := by
  unfold Activation
  infer_instance

structure SlotsOfTensors (g : Graph R) (p : MemoryReusePlan) : Prop where
  ids : p.slots.map (·.slotId) = List.range p.slots.length
  /-- Every tensor is a tenant once, of one slot. -/
  one : (p.slots.flatMap (·.tenants)).Perm (g.tensors.map (·.id))
  mapped : ∀ t ∈ g.tensors, ∃ slot ∈ p.slots, p.slotOf t.id = some slot.slotId ∧ t.id ∈ slot.tenants
  large : ∀ slot ∈ p.slots, ∀ t ∈ g.tensors, t.id ∈ slot.tenants → estimateTensorBytes t ≤ slot.bytes
  alone : ∀ slot ∈ p.slots, ∀ t ∈ g.tensors, t.id ∈ slot.tenants → ¬ Activation g t.id → slot.tenants = [t.id]

variable {h : HashOrder} {ops : List PlannedOp}

/-- Where ids are distinct, the lifetimes are the tensors'. -/
theorem lifetimes_perm (hids : (g.tensors.map (·.id)).Nodup) :
    ((lifetimes h g ops).map (·.tensorId)).Perm (g.tensors.map (·.id)) := by
  refine (List.perm_ext_iff_of_nodup (lifetimes_nodup h g ops) hids).mpr fun id => ⟨fun hid => ?_, fun hid => ?_⟩
  · obtain ⟨life, hlife, rfl⟩ := List.mem_map.mp hid
    have hmem : life.key ∈ (lifetimes h g ops).map TensorLifetime.key := List.mem_map_of_mem hlife
    rw [lifetimes_key] at hmem
    obtain ⟨base, hbase, heq⟩ := List.mem_map.mp hmem
    obtain ⟨u, -, hu⟩ := List.mem_filterMap.mp hbase
    obtain ⟨t, ht, rfl⟩ := Option.map_eq_some_iff.mp hu
    have hid : t.id = life.tensorId := congrArg Prod.fst heq
    exact hid ▸ List.mem_map_of_mem (List.mem_reverse.mp (List.mem_of_find?_eq_some ht))
  · obtain ⟨t, ht, rfl⟩ := List.mem_map.mp hid
    obtain ⟨life, hlife, hlid⟩ := (lifetimes_bytes h g ops).2 t ht
    exact hlid ▸ List.mem_map_of_mem hlife

/-- A lifetime that is not pinned is an activation's. -/
theorem activation_of_lifetime {life : TensorLifetime} (hlife : life ∈ lifetimes h g ops) (hact : life.pinned = false) :
    Activation g life.tensorId := by
  have hmem : life.key ∈ (lifetimes h g ops).map TensorLifetime.key := List.mem_map_of_mem hlife
  rw [lifetimes_key] at hmem
  obtain ⟨base, hbase, heq⟩ := List.mem_map.mp hmem
  obtain ⟨u, -, hu⟩ := List.mem_filterMap.mp hbase
  obtain ⟨t, ht, rfl⟩ := Option.map_eq_some_iff.mp hu
  simp only [TensorLifetime.key, initialLife, Prod.mk.injEq] at heq
  obtain ⟨hid, -, hweight, hio⟩ := heq
  rw [TensorLifetime.pinned, Bool.or_eq_false_iff] at hact
  rw [hact.2, decide_eq_false_iff_not, not_or, hid] at hio
  exact ⟨t, List.mem_reverse.mp (List.mem_of_find?_eq_some ht), hid, hweight.trans hact.1, hio⟩

theorem slotOf_lifetime {id : TensorId} {sid : Nat} (hsid : (buildMemoryReusePlan h g ops).slotOf id = some sid) :
    ∃ life ∈ lifetimes h g ops, life.tensorId = id := by
  obtain ⟨e, he, rfl⟩ := Option.map_eq_some_iff.mp hsid
  obtain ⟨slot, hslot, hmem⟩ := (buildMemoryReusePlan_ok h g ops).mapped e (List.mem_of_find?_eq_some he)
  have heid : e.1 = id := by simpa using List.find?_some he
  have htenant : id ∈ (assignSlots (lifetimes h g ops)).tenants :=
    List.mem_flatMap.mpr ⟨slot, List.mem_of_getElem? hslot, heid ▸ hmem⟩
  exact List.mem_map.mp ((assignSlots_tenants (lifetimes_bytes h g ops).1).mem_iff.mp htenant)

/-- Tensors that share a slot are activations. -/
theorem shared_activations {a b : TensorId} {sid : Nat} (hne : a ≠ b) (ha : (buildMemoryReusePlan h g ops).slotOf a = some sid)
    (hb : (buildMemoryReusePlan h g ops).slotOf b = some sid) : Activation g a ∧ Activation g b := by
  obtain ⟨la, hla, rfl⟩ := slotOf_lifetime ha
  obtain ⟨lb, hlb, rfl⟩ := slotOf_lifetime hb
  rcases slotOf_disjoint h g ops hne ha hb with hbefore | hbefore
  · obtain ⟨hpa, hpb, -⟩ := hbefore la hla rfl lb hlb rfl
    exact ⟨activation_of_lifetime hla hpa, activation_of_lifetime hlb hpb⟩
  · obtain ⟨hpb, hpa, -⟩ := hbefore lb hlb rfl la hla rfl
    exact ⟨activation_of_lifetime hla hpa, activation_of_lifetime hlb hpb⟩

theorem slots_of_tensors (hids : (g.tensors.map (·.id)).Nodup) : SlotsOfTensors g (buildMemoryReusePlan h g ops) := by
  have hok := buildMemoryReusePlan_ok h g ops
  have hone : ((assignSlots (lifetimes h g ops)).slots.flatMap (·.tenants)).Perm (g.tensors.map (·.id)) :=
    (assignSlots_tenants (lifetimes_bytes h g ops).1).trans (lifetimes_perm hids)
  refine ⟨?_, hone, fun t ht => ?_, fun slot hslot t ht hmem => ?_, fun slot hslot t ht hmem hact => ?_⟩
  · refine List.ext_getElem (by simp) fun i hi _ => ?_
    rw [List.length_map] at hi
    rw [List.getElem_map, List.getElem_range]
    exact hok.ids i _ (List.getElem?_eq_getElem hi)
  · obtain ⟨sid, slot, hsid, hslot, hmem⟩ := slotOf_tensor h g ops ht
    refine ⟨slot, List.mem_of_getElem? hslot, ?_, hmem⟩
    rw [hsid, hok.ids sid slot hslot]
  · obtain ⟨i, hi⟩ := List.mem_iff_getElem?.mp hslot
    have hfits := hok.fits i slot hi t.id hmem
    simpa only [lifeBytes, byId_eq hids ht, Option.map_some, Option.getD_some] using hfits
  · have hnd : slot.tenants.Nodup := (List.nodup_flatMap.mp (hone.nodup_iff.mpr hids)).1 slot hslot
    obtain ⟨i, hi⟩ := List.mem_iff_getElem?.mp hslot
    have hall : ∀ u ∈ slot.tenants, u = t.id := by
      intro u hu
      by_contra hne
      obtain ⟨life, hlife, hlid⟩ := (lifetimes_bytes h g ops).2 t ht
      have hulife : u ∈ (lifetimes h g ops).map (·.tensorId) :=
        (assignSlots_tenants (lifetimes_bytes h g ops).1).mem_iff.mp (List.mem_flatMap.mpr ⟨slot, hslot, hu⟩)
      obtain ⟨lu, hlu, hluid⟩ := List.mem_map.mp hulife
      have hfree : life.pinned = false := by
        rcases tenants_disjoint h g ops hi hne hu hmem with hbefore | hbefore
        · exact (hbefore lu hlu hluid life hlife hlid).2.1
        · exact (hbefore life hlife hlid lu hlu hluid).1
      exact hact (hlid ▸ activation_of_lifetime hlife hfree)
    rcases htenants : slot.tenants with _ | ⟨a, _ | ⟨b, rest⟩⟩
    · simp [htenants] at hmem
    · rw [hall a (by simp [htenants])]
    · rw [htenants] at hnd hall
      have hab : a = b := (hall a (by simp)).trans (hall b (by simp)).symm
      simp [hab] at hnd

/-! ## A cell a slot -/

/-- A tensor's slot; a tensor the plan does not know has a cell of its own. -/
def slotCell (p : MemoryReusePlan) (id : TensorId) : Nat ⊕ TensorId :=
  match p.slotOf id with
  | some sid => .inl sid
  | none => .inr id

theorem slotCell_shared {p : MemoryReusePlan} {a b : TensorId} (hne : a ≠ b) (he : slotCell p a = slotCell p b) :
    ∃ sid, p.slotOf a = some sid ∧ p.slotOf b = some sid := by
  unfold slotCell at he
  cases ha : p.slotOf a with
  | none =>
    cases hb : p.slotOf b with
    | none => simp [ha, hb, hne] at he
    | some sid => simp [ha, hb] at he
  | some sid =>
    cases hb : p.slotOf b with
    | none => simp [ha, hb] at he
    | some sid' =>
      obtain rfl : sid = sid' := by simpa [ha, hb] using he
      exact ⟨sid, rfl, rfl⟩

/-- An activation that an operator reads is written by an operator before it. -/
def WrittenFirst (g : Graph R) (ops : List PlannedOp) : Prop :=
  ∀ k (hk : k < ops.length), ∀ x ∈ ops[k].inputs, Activation g x → ∃ m ∈ ops.take k, x ∈ m.outputs

instance (g : Graph R) (ops : List PlannedOp) : Decidable (WrittenFirst g ops) := by
  unfold WrittenFirst
  infer_instance

def plannedCall (op : PlannedOp) : Op PlannedOp TensorId := ⟨op, op.inputs, op.outputs⟩

/-- A tensor that shares its slot with none is intact. -/
theorem intact_of_pinned {x : TensorId} (hx : ¬ Activation g x) (pre : List (Op PlannedOp TensorId)) :
    Intact (slotCell (buildMemoryReusePlan h g ops)) pre x := by
  intro p n q _
  left
  intro o _ hne he
  obtain ⟨sid, ho, hsid⟩ := slotCell_shared hne he
  exact hx (shared_activations hne ho hsid).2

theorem take_of_split {pre post : List PlannedOp} {op : PlannedOp} (hsplit : ops = pre ++ op :: post) :
    ops[pre.length]? = some op ∧ ops.take pre.length = pre := by
  subst hsplit
  simp

/-- What an operator reads is intact when it was written: a tensor of its slot is written
    before the operator that writes it, or after this one. -/
theorem intact_of_written {pre post : List PlannedOp} {op : PlannedOp} (hsplit : ops = pre ++ op :: post) {x : TensorId}
    (hx : x ∈ op.inputs) (hwritten : Activation g x → ∃ m ∈ pre, x ∈ m.outputs) :
    Intact (slotCell (buildMemoryReusePlan h g ops)) (pre.map plannedCall) x := by
  by_cases hact : Activation g x
  · obtain ⟨hop, -⟩ := take_of_split hsplit
    obtain ⟨m, hm, hmx⟩ := hwritten hact
    intro p n q he
    obtain ⟨p', nq, rfl, rfl, hnq⟩ := List.map_eq_append_iff.mp he
    obtain ⟨n', q', rfl, rfl, rfl⟩ := List.map_eq_cons_iff.mp hnq
    by_cases hq : m ∈ q'
    · exact Or.inr ⟨plannedCall m, List.mem_map_of_mem hq, hmx⟩
    · left
      intro o ho hne hcell
      obtain ⟨sid, hso, hsx⟩ := slotCell_shared hne hcell
      obtain ⟨other, hother, rfl, -⟩ := (shared_activations hne hso hsx).1
      obtain ⟨tx, htx, rfl, -⟩ := hact
      -- the operator that writes `x` comes no later than the one that writes `o`
      obtain ⟨i, hi, hile⟩ : ∃ i, ops[i]? = some m ∧ i ≤ p'.length := by
        have hmp : m ∈ p' ++ [n'] := by
          simp only [List.mem_append, List.mem_cons] at hm
          rcases hm with hm | rfl | hm
          · exact List.mem_append_left _ hm
          · simp
          · exact absurd hm hq
        obtain ⟨i, hi⟩ := List.mem_iff_getElem?.mp hmp
        have hlen := (List.getElem?_eq_some_iff.mp hi).1
        refine ⟨i, ?_, by simp at hlen; omega⟩
        have hpre : ops = (p' ++ [n']) ++ (q' ++ op :: post) := by rw [hsplit]; simp
        rw [hpre, List.getElem?_append_left hlen]
        exact hi
      have hn : ops[p'.length]? = some n' := by rw [hsplit]; simp
      have hlast : p'.length ≤ (p' ++ n' :: q').length := by simp
      have hdiff := slotOf_ne_of_live h g ops (List.mem_map_of_mem htx) (List.mem_map_of_mem hother) hne hi (Or.inr hmx) hop
        (Or.inl hx) hn (Or.inr ho) hile hlast
      exact hdiff (hso.trans hsx.symm)
  · exact intact_of_pinned hact _

theorem intact_of_read (hwritten : WrittenFirst g ops) {pre post : List PlannedOp} {op : PlannedOp}
    (hsplit : ops = pre ++ op :: post) {x : TensorId} (hx : x ∈ op.inputs) :
    Intact (slotCell (buildMemoryReusePlan h g ops)) (pre.map plannedCall) x := by
  refine intact_of_written hsplit hx fun hact => ?_
  obtain ⟨hop, htake⟩ := take_of_split hsplit
  obtain ⟨hlt, hget⟩ := List.getElem?_eq_some_iff.mp hop
  obtain ⟨m, hm, hmx⟩ := hwritten pre.length hlt x (by rw [hget]; exact hx) hact
  exact ⟨m, by rwa [htake] at hm, hmx⟩

/-- An operator reads from the slots what it reads from a cell a tensor, and the graph
    outputs are the same in the end. -/
structure SameRun {V : Type} (g : Graph R) (p : MemoryReusePlan) (ops : List PlannedOp) (I : Interp PlannedOp V)
    (mem : Nat ⊕ TensorId → V) (env : TensorId → V) : Prop where
  reads : ∀ pre op post, ops = pre ++ op :: post →
    op.inputs.map ((whole (slotCell p)).read ((whole (slotCell p)).exec I (pre.map plannedCall) mem)) =
      op.inputs.map ((whole id).read ((whole id).exec I (pre.map plannedCall) env))
  outputs : ∀ t ∈ g.outputs, (whole (slotCell p)).read ((whole (slotCell p)).exec I (ops.map plannedCall) mem) t =
    (whole id).read ((whole id).exec I (ops.map plannedCall) env) t

theorem reuse_refines (h : HashOrder) (hids : (g.tensors.map (·.id)).Nodup) (hwritten : WrittenFirst g ops) :
    SlotsOfTensors g (buildMemoryReusePlan h g ops) ∧
      ∀ (V : Type) (I : Interp PlannedOp V) (mem : Nat ⊕ TensorId → V) (env : TensorId → V),
        (∀ t, ¬ Activation g t → mem (slotCell (buildMemoryReusePlan h g ops) t) = env t) →
          SameRun g (buildMemoryReusePlan h g ops) ops I mem env := by
  refine ⟨slots_of_tensors hids, fun V I mem env hinit => ?_⟩
  have hread : ∀ pre op post, ops = pre ++ op :: post → ∀ x ∈ op.inputs,
      Intact (slotCell (buildMemoryReusePlan h g ops)) (pre.map plannedCall) x ∧
        (¬ Activation g x ∨ ∃ m ∈ pre.map plannedCall, x ∈ m.outs) := by
    intro pre op post hsplit x hx
    refine ⟨intact_of_read hwritten hsplit hx, ?_⟩
    by_cases hact : Activation g x
    · obtain ⟨hop, htake⟩ := take_of_split hsplit
      obtain ⟨hlt, hget⟩ := List.getElem?_eq_some_iff.mp hop
      obtain ⟨m, hm, hmx⟩ := hwritten pre.length hlt x (by rw [hget]; exact hx) hact
      rw [htake] at hm
      exact Or.inr ⟨plannedCall m, List.mem_map_of_mem hm, hmx⟩
    · exact Or.inl hact
  have hcalls : ∀ pre n post, ops.map plannedCall = pre ++ n :: post → ∀ x ∈ n.ins,
      Intact (slotCell (buildMemoryReusePlan h g ops)) pre x ∧ (¬ Activation g x ∨ ∃ m ∈ pre, x ∈ m.outs) := by
    intro pre n post he x hx
    obtain ⟨pre', rest, hsplit, rfl, hrest⟩ := List.map_eq_append_iff.mp he
    obtain ⟨op, post', rfl, rfl, rfl⟩ := List.map_eq_cons_iff.mp hrest
    exact hread pre' op post' hsplit x hx
  have hagree := fun pre post he => exec_whole (I := I) hinit hcalls pre post he
  refine ⟨fun pre op post hsplit => ?_, fun t ht => ?_⟩
  · refine List.map_congr_left fun x hx => ?_
    obtain ⟨hintact, hor⟩ := hread pre op post hsplit x hx
    exact hagree _ ((op :: post).map plannedCall) (by rw [hsplit, List.map_append]) x hintact hor
  · have hout : ¬ Activation g t := fun ⟨_, _, _, _, _, hno⟩ => hno ht
    exact hagree _ [] (by simp) t (intact_of_pinned hout _) (Or.inl hout)

/-- Four operators in a row: the first and the third activation share a slot. -/
def reluChain : Graph Int where
  version := kCurrentIrVersion
  name := ""
  producer := ""
  domain := ""
  tensors := [1, 2, 3, 4, 5].map fun id => ⟨id, "", .f32, [8], .unspecified, false, "", .f32⟩
  nodes := []
  inputs := [1]
  outputs := [5]
  metadata := []

def reluChainOps : List PlannedOp := [1, 2, 3, 4].map fun id => ⟨id, "", "Relu", "1", [], [id], [id + 1]⟩

theorem chain_shares_slots : (buildMemoryReusePlan .inserted reluChain reluChainOps).slotOf 2 = some 2 ∧
    (buildMemoryReusePlan .inserted reluChain reluChainOps).slotOf 4 = some 2 ∧
    SlotsOfTensors reluChain (buildMemoryReusePlan .inserted reluChain reluChainOps) ∧
    SameRun reluChain (buildMemoryReusePlan .inserted reluChain reluChainOps) reluChainOps (fun _ xs _ => xs.sum + 1)
      (fun _ => (0 : Int)) fun _ => 0 := by
  have hrefines : SlotsOfTensors reluChain (buildMemoryReusePlan .inserted reluChain reluChainOps) ∧ _ :=
    reuse_refines .inserted (by decide) (by decide)
  exact ⟨by decide +kernel, by decide +kernel, hrefines.1, hrefines.2 Int _ _ _ fun _ _ => rfl⟩

end Graph

end Uaii.Planner
