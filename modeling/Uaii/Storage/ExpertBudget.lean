/-
  Uaii.Storage.ExpertBudget — how many bytes `expert_store_` holds
  (`libs/uaii-storage/src/streaming.cpp`).

  Eviction passes over the `kMaxHot` experts marked last. Marking one more pushes the
  oldest off the list (`demoted`); its block stays until a later load makes room.

  Proved: eviction ends with room for the new block or with hot blocks only
  (`evictToFit_room`); the blocks that are not hot fit in the budget after a load exactly
  when the demoted one does (`put_cold_iff`); over a run whose loads and marks demote what
  fits, the cache holds no more than the budget and its hot blocks, and nothing when the
  plan's budget is 0 (`expert_bytes_within`).

  As built, a budget of 0 becomes one of 64 MiB at the first load, and an expert larger
  than the budget stays when it is demoted (`unbudgeted_expert_cached`).
-/

import Uaii.Storage.StagedBytes

namespace Uaii.Storage

open Uaii.Ir
open Uaii.Planner (StoragePlacement StoragePlan)

/-! ## Bytes of blocks -/

def bytesOf (bs : List Block) : Nat := (bs.map (·.bytes.length)).sum

section Bytes

variable {bs : List Block}

@[simp] theorem bytesOf_nil : bytesOf [] = 0 := rfl

@[simp] theorem bytesOf_cons (b : Block) (bs : List Block) : bytesOf (b :: bs) = b.bytes.length + bytesOf bs := by
  simp [bytesOf]

@[simp] theorem bytesOf_append (bs bs' : List Block) : bytesOf (bs ++ bs') = bytesOf bs + bytesOf bs' := by
  simp [bytesOf]

theorem bytesOf_filter_or (bs : List Block) {p q : Block → Bool} (h : ∀ b ∈ bs, p b = true → q b = false) :
    bytesOf (bs.filter fun b => p b || q b) = bytesOf (bs.filter p) + bytesOf (bs.filter q) := by
  induction bs with
  | nil => simp
  | cons b bs ih =>
    have hrest := ih fun c hc => h c (List.mem_cons_of_mem _ hc)
    have hb := h b List.mem_cons_self
    by_cases hp : p b = true
    · simp [hp, hb hp, hrest]
      omega
    · by_cases hq : q b = true
      · simp [hp, hq, hrest]
        omega
      · simp [hp, hq, hrest]

theorem bytesOf_split (bs : List Block) (p : Block → Bool) :
    bytesOf bs = bytesOf (bs.filter p) + bytesOf (bs.filter fun b => !p b) := by
  induction bs with
  | nil => simp
  | cons b bs ih =>
    by_cases hp : p b = true
    · simp [hp, ih]
      omega
    · simp [hp, ih]
      omega

/-- A block on its own, where no other has its id. -/
theorem bytesOf_without {b : Block} (hb : b ∈ bs) (hnd : (bs.map (·.id)).Nodup) :
    bytesOf bs = b.bytes.length + bytesOf (bs.filter (·.id != b.id)) := by
  induction bs with
  | nil => cases hb
  | cons c bs ih =>
    rw [List.map_cons, List.nodup_cons] at hnd
    rcases List.mem_cons.mp hb with rfl | hmem
    · have hrest : bs.filter (·.id != b.id) = bs := by
        refine List.filter_eq_self.mpr fun d hd => ?_
        have hne : d.id ≠ b.id := fun he => hnd.1 (he ▸ List.mem_map_of_mem hd)
        simpa using hne
      simp [hrest]
    · have hne : c.id ≠ b.id := fun he => hnd.1 (he ▸ List.mem_map_of_mem hmem)
      have hrest := ih hmem hnd.2
      simp [hne]
      omega

/-- The block with one id, if there is one. -/
theorem bytesOf_victim (hnd : (bs.map (·.id)).Nodup) (victim : Option TensorId) (m : Nat) :
    bytesOf (bs.filter fun b => victim == some b.id) ≤ m ↔ ∀ b ∈ bs, victim = some b.id → b.bytes.length ≤ m := by
  induction bs with
  | nil => simp
  | cons b bs ih =>
    rw [List.map_cons, List.nodup_cons] at hnd
    by_cases hb : victim = some b.id
    · have hnone : ∀ d ∈ bs, ¬ victim = some d.id := by
        intro d hd he
        rw [hb] at he
        exact hnd.1 (Option.some.inj he ▸ List.mem_map_of_mem hd)
      have hrest : bs.filter (fun d => victim == some d.id) = [] :=
        List.filter_eq_nil_iff.mpr fun d hd => by simpa using hnone d hd
      rw [List.filter_cons_of_pos (by simpa using hb), hrest]
      simp only [bytesOf_cons, bytesOf_nil, Nat.add_zero, List.forall_mem_cons]
      exact ⟨fun hle => ⟨fun _ => hle, fun d hd he => absurd he (hnone d hd)⟩, fun hall => hall.1 hb⟩
    · rw [List.filter_cons_of_neg (by simpa using hb), ih hnd.2, List.forall_mem_cons]
      exact ⟨fun hall => ⟨fun he => absurd he hb, hall⟩, fun hall => hall.2⟩

theorem bytesOf_sublist {bs bs' : List Block} (h : bs.Sublist bs') : bytesOf bs ≤ bytesOf bs' := by
  induction h with
  | slnil => exact Nat.le_refl _
  | cons b _ ih =>
    rw [bytesOf_cons]
    omega
  | cons_cons b _ ih =>
    simp only [bytesOf_cons]
    omega

theorem bytesOf_filter_id {id : TensorId} (hno : ∀ b ∈ bs, b.id ≠ id) : bytesOf (bs.filter (·.id != id)) = bytesOf bs := by
  rw [List.filter_eq_self.mpr fun b hb => by simpa using hno b hb]

end Bytes

namespace ExpertCache

variable {c : ExpertCache} {id victim : TensorId} {n : Nat}

def held (c : ExpertCache) : Nat := bytesOf c.store

def hotBytes (c : ExpertCache) : Nat := bytesOf (c.store.filter fun b => c.isHot b.id)

def coldBytes (c : ExpertCache) : Nat := bytesOf (c.store.filter fun b => !c.isHot b.id)

theorem held_eq (c : ExpertCache) : c.held = c.hotBytes + c.coldBytes := bytesOf_split c.store _

/-! ## What the counters count -/

structure Tracked (c : ExpertCache) : Prop where
  ids : (c.store.map (·.id)).Nodup
  used : c.used = c.held
  lru : ∀ id, id ∈ c.lru ↔ id ∈ c.store.map (·.id)
  lru_nodup : c.lru.Nodup
  hot : ∀ id ∈ c.hot, id ∈ c.store.map (·.id)
  hot_nodup : c.hot.Nodup
  hot_few : c.hot.length ≤ kMaxHot
  id_ne_zero : ∀ b ∈ c.store, b.id ≠ 0

theorem init_tracked (budget : Nat) : (init budget).Tracked where
  ids := List.nodup_nil
  used := rfl
  lru _ := Iff.rfl
  lru_nodup := List.nodup_nil
  hot _ h := by cases h
  hot_nodup := List.nodup_nil
  hot_few := Nat.zero_le _
  id_ne_zero _ h := by cases h

theorem Tracked.block (h : c.Tracked) (hid : id ∈ c.store.map (·.id)) : ∃ b ∈ c.store, b.id = id ∧ c.find id = some b := by
  obtain ⟨b, hb, rfl⟩ := List.mem_map.mp hid
  exact ⟨b, hb, rfl, Lists.find?_of_nodup h.ids hb⟩

theorem Tracked.touch (h : c.Tracked) (hid : id ∈ c.store.map (·.id)) : (c.touch id).Tracked := by
  refine ⟨h.ids, h.used, fun u => ?_, ?_, h.hot, h.hot_nodup, h.hot_few, h.id_ne_zero⟩
  · by_cases hu : u = id
    · simp [ExpertCache.touch, hu, hid]
    · simpa [ExpertCache.touch, hu] using h.lru u
  · have hno : id ∉ c.lru.filter (· != id) := by simp
    exact List.nodup_cons.mpr ⟨hno, h.lru_nodup.filter _⟩

/-! ## Marking -/

/-- The expert that leaves the list of hot ones when `id` is marked. -/
def demoted (c : ExpertCache) (id : TensorId) : Option TensorId :=
  if c.hot.length < kMaxHot ∨ id ∈ c.hot then none else c.hot.head?

theorem demoted_ne (c : ExpertCache) (id : TensorId) : c.demoted id ≠ some id := by
  intro hd
  unfold demoted at hd
  split at hd
  · cases hd
  · rename_i hroom
    push Not at hroom
    exact hroom.2 (List.mem_of_mem_head? hd)

theorem demoted_hot {u : TensorId} (hd : c.demoted id = some u) : c.isHot u = true := by
  unfold demoted at hd
  split at hd
  · cases hd
  · have hmem : u ∈ c.hot := List.mem_of_mem_head? hd
    simpa [isHot] using hmem

theorem markHot_hot (h : c.Tracked) (id : TensorId) : (c.markHot id).hot =
    (if c.hot.length < kMaxHot ∨ id ∈ c.hot then c.hot.filter (· != id) else c.hot.tail) ++ [id] := by
  have hfew := h.hot_few
  unfold markHot
  dsimp only
  by_cases hroom : c.hot.length < kMaxHot ∨ id ∈ c.hot
  · rw [if_pos hroom]
    have hshort : (c.hot.filter (· != id)).length + 1 ≤ kMaxHot := by
      have hle : (c.hot.filter (· != id)).length ≤ c.hot.length := List.length_filter_le _ _
      rcases hroom with hlt | hmem
      · omega
      · have hlt : (c.hot.filter (· != id)).length < c.hot.length := by
          refine List.length_filter_lt_length_iff_exists.mpr ⟨id, hmem, by simp⟩
        omega
    rw [List.length_append, List.length_singleton, Nat.sub_eq_zero_of_le hshort, List.drop_zero]
  · rw [if_neg hroom]
    push Not at hroom
    have hself : c.hot.filter (· != id) = c.hot :=
      List.filter_eq_self.mpr fun u hu => by simpa using fun he : u = id => hroom.2 (he ▸ hu)
    have hlen : c.hot.length = kMaxHot := by omega
    rw [hself, List.length_append, List.length_singleton, hlen, Nat.add_sub_cancel_left,
      List.drop_append_of_le_length (by rw [hlen]; decide), List.drop_one]

/-- Marking makes `id` hot and may demote one other. -/
theorem isHot_markHot (h : c.Tracked) (id u : TensorId) :
    (c.markHot id).isHot u = true ↔ u = id ∨ (c.isHot u = true ∧ c.demoted id ≠ some u) := by
  simp only [isHot, List.contains_iff_mem, markHot_hot h id, List.mem_append, List.mem_singleton]
  unfold demoted
  by_cases hroom : c.hot.length < kMaxHot ∨ id ∈ c.hot
  · simp only [if_pos hroom, List.mem_filter, bne_iff_ne]
    by_cases hu : u = id <;> simp [hu]
  · simp only [if_neg hroom]
    push Not at hroom
    cases hhot : c.hot with
    | nil =>
      rw [hhot] at hroom
      exact absurd hroom.1 (by decide)
    | cons x rest =>
      have hnd := h.hot_nodup
      rw [hhot, List.nodup_cons] at hnd
      simp only [List.tail_cons, List.head?_cons, List.mem_cons, ne_eq, Option.some.injEq]
      constructor
      · intro hor
        rcases hor with hmem | heq
        · exact .inr ⟨.inr hmem, fun he => hnd.1 (he ▸ hmem)⟩
        · exact .inl heq
      · intro hor
        rcases hor with heq | ⟨hmem, hne⟩
        · exact .inr heq
        · exact .inl (hmem.resolve_left fun he => hne he.symm)

theorem Tracked.markHot (h : c.Tracked) (hid : id ∈ c.store.map (·.id)) : (c.markHot id).Tracked := by
  refine ⟨h.ids, h.used, h.lru, h.lru_nodup, fun u hu => ?_, ?_, ?_, h.id_ne_zero⟩
  · have hhot : (c.markHot id).isHot u = true := by simpa [isHot] using hu
    rcases (isHot_markHot h id u).mp hhot with rfl | ⟨hold, -⟩
    · exact hid
    · exact h.hot u (by simpa [isHot] using hold)
  · rw [markHot_hot h id, List.nodup_append]
    refine ⟨?_, List.nodup_singleton id, fun u hu v hv => ?_⟩
    · split
      · exact h.hot_nodup.filter _
      · exact h.hot_nodup.sublist (List.tail_sublist _)
    · rw [List.mem_singleton.mp hv]
      rintro rfl
      split at hu
      · simp at hu
      · rename_i hroom
        push Not at hroom
        exact hroom.2 (List.mem_of_mem_tail hu)
  · have hfew := h.hot_few
    rw [markHot_hot h id, List.length_append, List.length_singleton]
    split
    · rename_i hroom
      rcases hroom with hlt | hmem
      · have hle : (c.hot.filter (· != id)).length ≤ c.hot.length := List.length_filter_le _ _
        omega
      · have hlt : (c.hot.filter (· != id)).length < c.hot.length :=
          List.length_filter_lt_length_iff_exists.mpr ⟨id, hmem, by simp⟩
        omega
    · rw [List.length_tail]
      have hpos : 0 < kMaxHot := by decide
      omega

/-! ## Making room -/

theorem drop_tracked (h : c.Tracked) (hv : victim ∈ c.lru) (hcold : c.isHot victim = false) :
    (c.drop victim).Tracked ∧ (c.drop victim).held ≤ c.held ∧ (c.drop victim).lru.length < c.lru.length ∧
      (c.drop victim).budget = c.budget := by
  obtain ⟨b, hb, rfl, hfind⟩ := h.block ((h.lru victim).mp hv)
  have hdrop : c.drop b.id = { c with
      lru := c.lru.filter (· != b.id)
      used := c.used - b.bytes.length
      store := c.store.filter fun d => d.id != b.id } := by
    have hfind' : ({ c with lru := c.lru.filter (· != b.id) } : ExpertCache).find b.id = some b := hfind
    simp only [drop, hfind']
  have hsub : (c.store.filter fun d => d.id != b.id).Sublist c.store := List.filter_sublist
  have hbytes : c.held = b.bytes.length + bytesOf (c.store.filter fun d => d.id != b.id) := bytesOf_without hb h.ids
  rw [hdrop]
  refine ⟨⟨h.ids.sublist (hsub.map _), ?_, fun u => ?_, h.lru_nodup.filter _, fun u hu => ?_, h.hot_nodup, h.hot_few,
    fun d hd => h.id_ne_zero d (hsub.subset hd)⟩, ?_, ?_, rfl⟩
  · have hused := h.used
    show c.used - b.bytes.length = bytesOf (c.store.filter fun d => d.id != b.id)
    omega
  · simp only [List.mem_filter, h.lru u, List.mem_map, bne_iff_ne, ne_eq]
    constructor
    · rintro ⟨⟨d, hd, rfl⟩, hne⟩
      exact ⟨d, ⟨hd, hne⟩, rfl⟩
    · rintro ⟨d, ⟨hd, hne⟩, rfl⟩
      exact ⟨⟨d, hd, rfl⟩, hne⟩
  · obtain ⟨d, hd, rfl⟩ := List.mem_map.mp (h.hot u hu)
    have hhot : c.isHot d.id = true := by simpa [isHot] using hu
    have hne : d.id ≠ b.id := fun he => by
      rw [he, hcold] at hhot
      cases hhot
    exact List.mem_map_of_mem (List.mem_filter.mpr ⟨hd, by simpa using hne⟩)
  · show bytesOf (c.store.filter fun d => d.id != b.id) ≤ c.held
    omega
  · exact List.length_filter_lt_length_iff_exists.mpr ⟨b.id, hv, by simp⟩

/-- What making room ends with: enough of it, or hot blocks only. -/
structure Room (n : Nat) (c c' : ExpertCache) : Prop where
  tracked : c'.Tracked
  budget : c'.budget = c.budget
  held_le : c'.held ≤ c.held
  room : c'.held + n ≤ c'.budget ∨ ∀ b ∈ c'.store, c'.isHot b.id = true

theorem evictLoop_room (n : Nat) : ∀ {fuel : Nat} {c : ExpertCache}, c.Tracked → c.held + n < 2 ^ 64 → c.lru.length ≤ fuel →
    Room n c (evictLoop n fuel c) := by
  intro fuel
  induction fuel with
  | zero =>
    intro c h _ hlen
    have hlru : c.lru = [] := List.length_eq_zero_iff.mp (by omega)
    refine ⟨h, rfl, Nat.le_refl _, .inr fun b hb => ?_⟩
    have hmem := (h.lru b.id).mpr (List.mem_map_of_mem hb)
    rw [hlru] at hmem
    cases hmem
  | succ fuel ih =>
    intro c h hsum hlen
    have hwrap : wrap64 (c.used + n) = c.held + n := by rw [h.used, wrap64_of_lt hsum]
    unfold evictLoop
    split
    · rename_i hfits
      exact ⟨h, rfl, Nat.le_refl _, .inl (by omega)⟩
    · split
      · rename_i hnone
        refine ⟨h, rfl, Nat.le_refl _, .inr fun b hb => ?_⟩
        have hmem := (h.lru b.id).mpr (List.mem_map_of_mem hb)
        simpa using List.find?_eq_none.mp hnone b.id (List.mem_reverse.mpr hmem)
      · rename_i victim hvictim
        have hv : victim ∈ c.lru := List.mem_reverse.mp (List.mem_of_find?_eq_some hvictim)
        have hcold : c.isHot victim = false := by simpa using List.find?_some hvictim
        obtain ⟨b, hb, hid, -⟩ := h.block ((h.lru victim).mp hv)
        rw [if_neg (hid ▸ h.id_ne_zero b hb)]
        obtain ⟨htracked, hheld, hshort, hbudget⟩ := drop_tracked h hv hcold
        have hroom := ih htracked (by omega) (by omega)
        exact ⟨hroom.tracked, hroom.budget.trans hbudget, hroom.held_le.trans hheld, hroom.room⟩

theorem evictToFit_room (h : c.Tracked) (hbudget : c.budget ≠ 0) (hsum : c.held + n < 2 ^ 64) : Room n c (c.evictToFit n) := by
  rw [evictToFit, if_neg hbudget]
  exact evictLoop_room n h hsum (Nat.le_refl _)

theorem makeRoom_room (h : c.Tracked) (hbudget : c.budget ≠ 0) (hsum : c.held + n < 2 ^ 64) : Room n c (c.makeRoom n) := by
  have hsame : c.withBudget n = c := by rw [withBudget, if_neg hbudget]
  rw [makeRoom, hsame]
  exact evictToFit_room h hbudget hsum

/-! ## Cold blocks -/

/-- The cold blocks of other experts. -/
def coldBut (c : ExpertCache) (id : TensorId) : Nat := bytesOf (c.store.filter fun b => !c.isHot b.id && b.id != id)

/-- The bytes of the expert that marking `id` demotes. -/
def demotedBytes (c : ExpertCache) (id : TensorId) : Nat := bytesOf (c.store.filter fun b => c.demoted id == some b.id)

/-- After marking, what is cold is what was cold of the others, and the demoted block. -/
theorem markHot_cold (h : c.Tracked) (id : TensorId) :
    (c.markHot id).coldBytes = c.coldBut id + c.demotedBytes id := by
  have hhot : ∀ u, c.demoted id = some u → c.isHot u = true ∧ u ≠ id := fun u hu =>
    ⟨demoted_hot hu, fun he => c.demoted_ne id (hu.trans (congrArg some he))⟩
  have hcold : ∀ b : Block, (!(c.markHot id).isHot b.id) =
      ((!c.isHot b.id && b.id != id) || c.demoted id == some b.id) := by
    intro b
    have hmark := isHot_markHot h id b.id
    by_cases hd : c.demoted id = some b.id
    · have hb := hhot b.id hd
      have hno : ¬ (c.markHot id).isHot b.id = true := fun hm => by
        rcases hmark.mp hm with he | ⟨-, hne⟩
        · exact hb.2 he
        · exact hne hd
      simp [hno, hd]
    · by_cases hm : (c.markHot id).isHot b.id = true
      · rcases hmark.mp hm with he | ⟨ho, -⟩
        · rw [he] at hm hd ⊢
          simp [hm, hd]
        · simp [hm, ho, hd]
      · have hno : ¬ (b.id = id ∨ (c.isHot b.id = true ∧ c.demoted id ≠ some b.id)) := fun ho => hm (hmark.mpr ho)
        push Not at hno
        have hoff : c.isHot b.id ≠ true := fun ho => hd (hno.2 ho)
        simp [hm, hno.1, hoff]
  show bytesOf (c.store.filter fun b => !(c.markHot id).isHot b.id) = _
  rw [List.filter_congr fun b _ => hcold b]
  refine bytesOf_filter_or _ fun b _ hb => ?_
  by_contra hd
  have hd' : c.demoted id = some b.id := by simpa using hd
  simp [(hhot b.id hd').1] at hb

/-! ## Loads and marks -/

/-- `n` bytes can be put in the cache under `id`. -/
structure Puts (c : ExpertCache) (id : TensorId) (n : Nat) : Prop where
  budget : c.budget ≠ 0
  id_ne_zero : id ≠ 0
  size : c.held + n < 2 ^ 64

/-- The demoted expert's block fits in the budget. -/
def DemotesFitting (c : ExpertCache) (id : TensorId) : Prop :=
  ∀ b ∈ c.store, c.demoted id = some b.id → b.bytes.length ≤ c.budget

/-- The new block is in place, and not marked yet. -/
def placed (c : ExpertCache) (id : TensorId) (data : Bytes) : ExpertCache :=
  { c with
    store := (c.store.filter fun b => b.id != id) ++ [⟨id, c.nextAddr, data⟩]
    nextAddr := c.nextAddr + 1
    used := wrap64 ((match c.find id with
      | some b => if b.bytes.length ≤ c.used then c.used - b.bytes.length else c.used
      | none => c.used) + data.length)
    lru := id :: c.lru.filter (· != id) }

theorem put_eq {data : Bytes} (hdata : data ≠ []) : c.put id data = ((c.makeRoom data.length).placed id data).markHot id := by
  unfold put
  rw [if_neg hdata]
  rfl

/-- The counter without the tensor's own block. -/
theorem Tracked.used_without (h : c.Tracked) (id : TensorId) :
    (match c.find id with
      | some b => if b.bytes.length ≤ c.used then c.used - b.bytes.length else c.used
      | none => c.used) = bytesOf (c.store.filter fun b => b.id != id) := by
  have hused := h.used
  cases hfind : c.find id with
  | none =>
    have hno : ∀ b ∈ c.store, b.id ≠ id := fun b hb => by simpa using List.find?_eq_none.mp hfind b hb
    rw [bytesOf_filter_id hno]
    exact hused
  | some b =>
    obtain ⟨hb, rfl⟩ := find_some hfind
    have hbytes : c.held = b.bytes.length + bytesOf (c.store.filter fun d => d.id != b.id) := bytesOf_without hb h.ids
    have hle : b.bytes.length ≤ c.used := by omega
    simp only [if_pos hle]
    omega

theorem placed_tracked (h : c.Tracked) (hid : id ≠ 0) {data : Bytes} (hsum : c.held + data.length < 2 ^ 64) :
    (c.placed id data).Tracked := by
  have hle : bytesOf (c.store.filter fun b => b.id != id) ≤ c.held := by
    have hsplit := bytesOf_split c.store fun b => b.id != id
    have hheld : c.held = bytesOf c.store := rfl
    omega
  have hold : ∀ u, u ∈ c.store.map (·.id) → u ≠ id → u ∈ (c.placed id data).store.map (·.id) := by
    intro u hu hne
    obtain ⟨b, hb, rfl⟩ := List.mem_map.mp hu
    have hkept : b ∈ c.store.filter fun d => d.id != id := List.mem_filter.mpr ⟨hb, by simpa using hne⟩
    exact List.mem_map_of_mem (List.mem_append_left _ hkept)
  have hnew : id ∈ (c.placed id data).store.map (·.id) := by simp [placed]
  refine ⟨?_, ?_, fun u => ?_, ?_, fun u hu => ?_, h.hot_nodup, h.hot_few, fun b hb => ?_⟩
  · have hnd : ((c.store.filter fun b => b.id != id).map (·.id)).Nodup := h.ids.sublist (List.filter_sublist.map _)
    have hdisj : ∀ u ∈ (c.store.filter fun b => b.id != id).map (·.id), u ≠ id := by
      intro u hu
      obtain ⟨b, hb, rfl⟩ := List.mem_map.mp hu
      simpa using (List.mem_filter.mp hb).2
    simp only [placed, List.map_append, List.map_cons, List.map_nil]
    exact List.nodup_append.mpr ⟨hnd, List.nodup_singleton id, fun u hu v hv => by
      rw [List.mem_singleton.mp hv]
      exact hdisj u hu⟩
  · have hused := h.used_without id
    simp only [placed, held, bytesOf_append, bytesOf_cons, bytesOf_nil, Nat.add_zero]
    rw [hused, wrap64_of_lt (by omega)]
  · constructor
    · intro hu
      simp only [placed, List.mem_cons, List.mem_filter, bne_iff_ne] at hu
      rcases hu with rfl | ⟨hmem, hne⟩
      · exact hnew
      · exact hold u ((h.lru u).mp hmem) hne
    · intro hu
      obtain ⟨b, hb, rfl⟩ := List.mem_map.mp hu
      by_cases hne : b.id = id
      · simp [placed, hne]
      · have hmem : b ∈ c.store := by
          rcases List.mem_append.mp hb with hb | hb
          · exact (List.mem_filter.mp hb).1
          · rw [List.mem_singleton.mp hb] at hne
            exact absurd rfl hne
        have hlru := (h.lru b.id).mpr (List.mem_map_of_mem hmem)
        simp [placed, hne, hlru]
  · have hno : id ∉ c.lru.filter (· != id) := by simp
    exact List.nodup_cons.mpr ⟨hno, h.lru_nodup.filter _⟩
  · by_cases hne : u = id
    · exact hne ▸ hnew
    · exact hold u (h.hot u hu) hne
  · rcases List.mem_append.mp hb with hb | hb
    · exact h.id_ne_zero b (List.mem_filter.mp hb).1
    · rw [List.mem_singleton.mp hb]
      exact hid

theorem placed_coldBut (c : ExpertCache) (id : TensorId) (data : Bytes) : (c.placed id data).coldBut id = c.coldBut id := by
  simp [coldBut, placed, isHot, List.filter_filter]

theorem placed_demotedBytes (c : ExpertCache) (id : TensorId) (data : Bytes) :
    (c.placed id data).demotedBytes id = c.demotedBytes id := by
  have hsame : (c.placed id data).demoted id = c.demoted id := rfl
  have hne := c.demoted_ne id
  have hother : ∀ b ∈ c.store, (c.demoted id == some b.id && b.id != id) = (c.demoted id == some b.id) := by
    intro b _
    by_cases hb : b.id = id
    · simp [hb, hne]
    · simp [hb]
  rw [demotedBytes, hsame, placed, List.filter_append, List.filter_filter, List.filter_congr hother]
  simp [hne, demotedBytes]

/-- Hot blocks survive eviction, and the demoted one is hot. -/
theorem makeRoom_demotes (c : ExpertCache) (id : TensorId) (n : Nat) (hbudget : (c.makeRoom n).budget = c.budget) :
    (c.makeRoom n).DemotesFitting id ↔ c.DemotesFitting id := by
  obtain ⟨hsub, -, hhot⟩ := c.makeRoom_store n
  have hsame : (c.makeRoom n).demoted id = c.demoted id := by simp only [demoted, hhot]
  unfold DemotesFitting
  rw [hsame, hbudget]
  exact ⟨fun hall b hb hd => hall b (makeRoom_hot hb (demoted_hot hd)) hd, fun hall b hb hd => hall b (hsub.subset hb) hd⟩

theorem demotesFitting_iff (h : c.Tracked) : c.DemotesFitting id ↔ c.demotedBytes id ≤ c.budget :=
  (bytesOf_victim h.ids _ _).symm

theorem cold_and_demoted_le (c : ExpertCache) (id : TensorId) : c.coldBut id + c.demotedBytes id ≤ c.held := by
  have hdisj : ∀ b ∈ c.store, (!c.isHot b.id && b.id != id) = true → (c.demoted id == some b.id) = false := by
    intro b _ hb
    by_contra hd
    have hhot : c.isHot b.id = true := demoted_hot (by simpa using hd)
    simp [hhot] at hb
  rw [coldBut, demotedBytes, ← bytesOf_filter_or _ hdisj]
  exact bytesOf_sublist List.filter_sublist

/-- After a load the cold blocks fit in the budget exactly when the demoted one does. -/
theorem put_cold_iff (h : c.Tracked) {data : Bytes} (hdata : data ≠ []) (hp : c.Puts id data.length) :
    (c.put id data).Tracked ∧ (c.put id data).budget = c.budget ∧
      ((c.put id data).coldBytes ≤ c.budget ↔ c.DemotesFitting id) := by
  have hroom := makeRoom_room h hp.budget hp.size
  have hheld := hroom.held_le
  have hsize := hp.size
  have hplaced : ((c.makeRoom data.length).placed id data).Tracked := placed_tracked hroom.tracked hp.id_ne_zero (by omega)
  have hmem : id ∈ ((c.makeRoom data.length).placed id data).store.map (·.id) := by simp [placed]
  rw [put_eq hdata]
  refine ⟨hplaced.markHot hmem, hroom.budget, ?_⟩
  rw [markHot_cold hplaced, placed_coldBut, placed_demotedBytes, ← makeRoom_demotes c id data.length hroom.budget,
    demotesFitting_iff hroom.tracked, hroom.budget]
  have hall := cold_and_demoted_le (c.makeRoom data.length) id
  have hbudget := hroom.budget
  rcases hroom.room with hfits | hhot
  · -- with room for the block, the rest fits already
    constructor
    · intro hle
      omega
    · intro _
      omega
  · have hnone : (c.makeRoom data.length).store.filter
        (fun b => !(c.makeRoom data.length).isHot b.id && b.id != id) = [] :=
      List.filter_eq_nil_iff.mpr fun b hb => by simp [hhot b hb]
    rw [coldBut, hnone, bytesOf_nil, Nat.zero_add]

/-! ## Within the plan's budget -/

/-- What a plan's budget promises of the cache. -/
structure Within (budget : Nat) (c : ExpertCache) : Prop where
  tracked : c.Tracked
  budget_eq : c.budget = budget
  cold_le : c.coldBytes ≤ budget
  unbudgeted : budget = 0 → c.store = []

/-- The bytes of `id` can be put in the cache. -/
def PutFits (c : ExpertCache) (id : TensorId) (n : Nat) : Prop := c.Puts id n ∧ c.DemotesFitting id

/-- A cached expert is marked: the demoted block fits in the budget, with the other cold ones. -/
def MarkFits (c : ExpertCache) (id : TensorId) : Prop :=
  id ∈ c.store.map (·.id) → c.coldBut id + c.demotedBytes id ≤ c.budget

theorem PutFits.mono {n' : Nat} (h : c.PutFits id n) (hle : n' ≤ n) : c.PutFits id n' := by
  have hsize := h.1.size
  exact ⟨⟨h.1.budget, h.1.id_ne_zero, by omega⟩, h.2⟩

variable {budget : Nat}

theorem init_within (budget : Nat) : (init budget).Within budget := ⟨init_tracked budget, rfl, Nat.zero_le _, fun _ => rfl⟩

theorem Within.touch (h : c.Within budget) (hid : id ∈ c.store.map (·.id)) : (c.touch id).Within budget :=
  ⟨h.tracked.touch hid, h.budget_eq, h.cold_le, h.unbudgeted⟩

theorem Within.put (h : c.Within budget) {data : Bytes} (hf : data ≠ [] → c.PutFits id data.length) :
    (c.put id data).Within budget := by
  by_cases hdata : data = []
  · have hsame : c.put id data = c := by rw [ExpertCache.put, if_pos hdata]
    rw [hsame]
    exact h
  · obtain ⟨hputs, hdemotes⟩ := hf hdata
    obtain ⟨htracked, hbudget, hcold⟩ := put_cold_iff h.tracked hdata hputs
    have hpos := hputs.budget
    have heq := h.budget_eq
    refine ⟨htracked, hbudget.trans heq, heq ▸ hcold.mpr hdemotes, fun hz => ?_⟩
    omega

theorem Within.markHot (h : c.Within budget) (hid : id ∈ c.store.map (·.id)) (hf : c.MarkFits id) :
    (c.markHot id).Within budget := by
  refine ⟨h.tracked.markHot hid, h.budget_eq, ?_, h.unbudgeted⟩
  rw [markHot_cold h.tracked, ← h.budget_eq]
  exact hf hid

end ExpertCache

/-! ## Runs of the store -/

namespace Store

variable {env : Loader} {plan : StoragePlan} {s : Store} {id : TensorId} {slot : Fin 2} {budget : Nat}

/-- If `stage_into` loads an expert, its bytes can be put in the cache. -/
def StageIntoFits (env : Loader) (s : Store) (slot : Fin 2) (id : TensorId) : Prop :=
  ∀ p ∈ s.placement id, p.expert = true → s.misses slot p = true → (s.loadAnswer env slot p).1 = .ok () →
    0 < p.bytes → s.experts.PutFits id p.bytes

/-- The same of the prefetch task that is under way. -/
def TaskFits (env : Loader) (s : Store) : Prop := ∀ t ∈ s.prefetchFut, t.result = none → s.StageIntoFits env t.slot t.id

def CallFits (env : Loader) (s : Store) : Call → Prop
  | .stage id => s.isStreamed id = true → s.TaskFits env ∧
      (s.reloads env id → (s.settle env).2.StageIntoFits env (s.settle env).2.active id) ∧
      (s.bringIn env id).2.experts.MarkFits id
  | .prefetch _ => True
  | .complete => s.TaskFits env

/-- Reached by calls whose loads and marks fit. -/
inductive Fitting (env : Loader) (plan : StoragePlan) : Store → Prop
  | configure : Fitting env plan (configure plan)
  | call {s : Store} (c : Call) : Fitting env plan s → s.CallFits env c → Fitting env plan (s.call env c)

theorem stageInto_within (h : s.experts.Within budget) (hf : s.StageIntoFits env slot id) :
    (s.stageInto env slot id).2.experts.Within budget := by
  unfold stageInto
  cases hp : s.placement id with
  | none => exact h
  | some p =>
    dsimp only
    split
    · exact h
    rename_i hlen
    cases hc : s.cached p with
    | some data =>
      obtain ⟨-, hid⟩ := placement_some hp
      have hmem : id ∈ s.experts.store.map (·.id) := by
        unfold cached ExpertCache.get at hc
        split at hc
        · split at hc
          · rename_i b hb
            obtain ⟨hmem, hbid⟩ := ExpertCache.find_some hb
            exact hid ▸ hbid ▸ List.mem_map_of_mem hmem
          · cases hc
        · cases hc
      exact h.touch hmem
    | none =>
      cases hans : (s.loadAnswer env slot p).1 with
      | error e => exact h
      | ok u =>
        dsimp only
        split
        · rename_i he
          have hmiss : s.misses slot p = true := by simp [misses, hc, Nat.not_lt.mp hlen]
          refine h.put fun hdata => ?_
          have hle : (((s.setSlot slot (s.loadAnswer env slot p).2).buffers slot).take p.bytes).length ≤ p.bytes :=
            List.length_take_le _ _
          have hpos := List.length_pos_iff.mpr hdata
          exact (hf p hp he hmiss hans (by omega)).mono hle
        · exact h

theorem complete_within (h : s.experts.Within budget) (hf : s.TaskFits env) : (s.complete env).experts.Within budget := by
  unfold complete
  split
  · rename_i slot id hfut
    exact stageInto_within h (hf _ hfut rfl)
  · exact h

theorem settle_within (h : s.experts.Within budget) (hf : s.TaskFits env) : (s.settle env).2.experts.Within budget := by
  unfold settle
  split
  · exact complete_within h hf
  · exact h

theorem flip_experts (s : Store) : s.flip.experts = s.experts := by
  unfold flip
  split
  · rfl
  · rfl

theorem bringIn_within (h : s.experts.Within budget) (hf : s.TaskFits env)
    (hr : s.reloads env id → (s.settle env).2.StageIntoFits env (s.settle env).2.active id) :
    (s.bringIn env id).2.experts.Within budget := by
  have hsettle := settle_within h hf
  unfold bringIn
  dsimp only
  split
  · split
    · exact hsettle
    · exact (flip_experts _).symm ▸ hsettle
  · rename_i hpend
    split
    · exact hsettle
    · rename_i hact
      split
      · exact (flip_experts _).symm ▸ hsettle
      · rename_i hother
        exact stageInto_within hsettle (hr ⟨by simpa using hpend, hact, fun hb hid => hother ⟨hb, hid⟩⟩)

theorem stage_within (h : s.experts.Within budget) (hf : s.CallFits env (.stage id)) :
    (s.stage env id).2.experts.Within budget := by
  unfold stage
  cases hp : s.placement id with
  | none => exact h
  | some p =>
    obtain ⟨htask, hloads, hmark⟩ := hf (by simp [isStreamed, hp])
    have hin := bringIn_within h htask hloads
    dsimp only
    split
    · exact hin
    · split
      · rename_i b hb
        split
        · have hfind : (s.bringIn env id).2.experts.find id = some b := by
            split at hb
            · exact hb
            · cases hb
          obtain ⟨hmem, hid⟩ := ExpertCache.find_some hfind
          exact hin.markHot (List.mem_map.mpr ⟨b, hmem, hid⟩) hmark
        · exact hin
      · exact hin

theorem Fitting.within (h : Fitting env plan s) : s.experts.Within plan.expertCacheBytes := by
  induction h with
  | configure => exact ExpertCache.init_within _
  | call c _ hc ih =>
    cases c with
    | stage id => exact stage_within ih hc
    | prefetch id =>
      show (prefetch _ id).experts.Within _
      unfold prefetch
      split
      · exact ih
      · exact ih
    | complete => exact complete_within ih hc

/-- The bytes of `expert_store_` keep to the plan. -/
structure WithinBudget (plan : StoragePlan) (s : Store) : Prop where
  held_le : s.experts.held ≤ plan.expertCacheBytes + s.experts.hotBytes
  hot_few : s.experts.hot.length ≤ kMaxHot
  unbudgeted : plan.expertCacheBytes = 0 → s.experts.store = []

/-- Over any calls whose loads and marks fit, the cached bytes keep to the plan's budget. -/
theorem expert_bytes_within (h : Fitting env plan s) : WithinBudget plan s := by
  have hw := h.within
  have hcold := hw.cold_le
  have hheld := s.experts.held_eq
  exact ⟨by omega, hw.tracked.hot_few, hw.unbudgeted⟩

/-! ## Small plans -/

/-- `n` experts of two bytes each, streamed through one buffer. -/
def expertPlan (budget n : Nat) : StoragePlan :=
  ⟨(List.range n).map fun i => ⟨i + 1, "blk.0.ffn_gate_exps.weight", .mmap, true, true, 2, "m.gguf"⟩, [], 0, 2 * n, 2, 1,
    budget, n, true⟩

def expertLoader : Loader := fun _ id _ n buf => (.ok (), List.replicate n id.toUInt8 ++ buf.drop n)

theorem one_expert_within : WithinBudget (expertPlan 8 1) ((configure (expertPlan 8 1)).call expertLoader (.stage 1)) := by
  have hsize : ∀ q ∈ ((configure (expertPlan 8 1)).settle expertLoader).2.placement 1, q.bytes = 2 := by decide
  have hfits : (configure (expertPlan 8 1)).CallFits expertLoader (.stage 1) := by
    refine fun _ => ⟨nofun, fun _ p hp _ _ _ _ => ?_, ?_⟩
    · refine ⟨⟨by decide, by decide, ?_⟩, fun b hb _ => by cases hb⟩
      rw [hsize p hp]
      decide
    · unfold ExpertCache.MarkFits
      decide
  exact expert_bytes_within (.call (.stage 1) .configure hfits)

/-- Without a budget one expert stays in the cache; with one byte, the first of 33 experts
    stays when it is demoted. -/
theorem unbudgeted_expert_cached :
    ¬ WithinBudget (expertPlan 0 1) ((configure (expertPlan 0 1)).call expertLoader (.stage 1)) ∧
      ¬ WithinBudget (expertPlan 1 33)
        (((List.range 33).map fun i => Call.stage (i + 1)).foldl (call expertLoader) (configure (expertPlan 1 33))) := by
  constructor
  · intro h
    have hempty := h.unbudgeted rfl
    revert hempty
    decide
  · intro h
    have hheld := h.held_le
    revert hheld
    decide +kernel

end Store

end Uaii.Storage
