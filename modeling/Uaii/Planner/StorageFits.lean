/-
  Uaii.Planner.StorageFits — when a storage plan fits its budget.

  Proved: under a budget of at least 1 MiB the planner answers as its dial promises
  (a plan exactly when a state of the dial fits, and the plan within the budget) exactly
  when one of the first 65 states fits, or none fits and the last one tried still streams
  something (`storage_plan_fits_iff`).
-/

import Mathlib.Algebra.Order.BigOperators.Group.List
import Mathlib.Algebra.Order.Group.Nat
import Uaii.Planner.StoragePlan

namespace Uaii.Planner

open Uaii.Ir Uaii.Quant

/-! ## What a state of the dial needs -/

def sumBytes (ps : List StoragePlacement) : Nat := (ps.map (·.bytes)).sum

/-- Bytes of the weights the state pins. -/
def pinnedBytes (tight : Bool) (ps : List StoragePlacement) (d : Dial) : Nat := sumBytes (ps.filter (wouldPin tight d))

/-- The largest weight the state streams. -/
def largestStreamed (tight : Bool) (ps : List StoragePlacement) (d : Dial) : Nat :=
  maxBytes (ps.filter fun p => p.paged && !wouldPin tight d p)

theorem totalBytes_eq {ps : List StoragePlacement} (h : sumBytes ps < 2 ^ 64) : totalBytes ps = sumBytes ps := by
  have hfold : ∀ (ps : List StoragePlacement) (n : Nat), n + sumBytes ps < 2 ^ 64 →
      ps.foldl (fun n p => wrap64 (n + p.bytes)) n = n + sumBytes ps := by
    intro ps
    induction ps with
    | nil => intro n _; rfl
    | cons p ps ih =>
      intro n hn
      have hsum : sumBytes (p :: ps) = p.bytes + sumBytes ps := by simp [sumBytes]
      rw [hsum] at hn ⊢
      rw [List.foldl_cons, wrap64_of_lt (by omega), ih _ (by omega)]
      omega
  have h0 := hfold ps 0 (by omega)
  rwa [Nat.zero_add] at h0

theorem sumBytes_filter_le (q : StoragePlacement → Bool) (ps : List StoragePlacement) :
    sumBytes (ps.filter q) ≤ sumBytes ps := by
  induction ps with
  | nil => exact Nat.le_refl _
  | cons p ps ih =>
    by_cases hq : q p = true
    · rw [List.filter_cons_of_pos hq]
      simp only [sumBytes, List.map_cons, List.sum_cons] at ih ⊢
      omega
    · rw [List.filter_cons_of_neg hq]
      simp only [sumBytes, List.map_cons, List.sum_cons] at ih ⊢
      omega

theorem le_maxBytes {ps : List StoragePlacement} {p : StoragePlacement} (h : p ∈ ps) : p.bytes ≤ maxBytes ps := by
  have hfold : ∀ (ps : List StoragePlacement) (n : Nat), n ≤ ps.foldl (fun n p => max n p.bytes) n ∧
      ∀ p ∈ ps, p.bytes ≤ ps.foldl (fun n p => max n p.bytes) n := by
    intro ps
    induction ps with
    | nil => intro n; simp
    | cons q ps ih =>
      intro n
      obtain ⟨hle, hmem⟩ := ih (max n q.bytes)
      rw [List.foldl_cons]
      refine ⟨by omega, fun p hp => ?_⟩
      cases List.mem_cons.mp hp with
      | inl he => rw [he]; omega
      | inr hp => exact hmem p hp
  exact (hfold ps 0).2 p h

/-- The planner's sums. -/
theorem pinAndStaging_eq {tight : Bool} {ps : List StoragePlacement} {d : Dial} (h : pinnedBytes tight ps d < 2 ^ 64) :
    (pinAndStaging tight ps d).pin = pinnedBytes tight ps d ∧
      (pinAndStaging tight ps d).stage = largestStreamed tight ps d := by
  have hfold : ∀ (ps : List StoragePlacement) (s : PinSums), s.pin + pinnedBytes tight ps d < 2 ^ 64 →
      (ps.foldl (PinSums.add tight d) s).pin = s.pin + pinnedBytes tight ps d ∧
        (ps.foldl (PinSums.add tight d) s).stage =
          (ps.filter fun p => p.paged && !wouldPin tight d p).foldl (fun n p => max n p.bytes) s.stage := by
    intro ps
    induction ps with
    | nil => intro s _; exact ⟨rfl, rfl⟩
    | cons p ps ih =>
      intro s hs
      rw [List.foldl_cons]
      by_cases hp : p.paged = true
      · by_cases hw : wouldPin tight d p = true
        · have hadd : PinSums.add tight d s p = { s with pin := wrap64 (s.pin + p.bytes) } := by
            simp [PinSums.add, hp, hw]
          have hpin : pinnedBytes tight (p :: ps) d = p.bytes + pinnedBytes tight ps d := by
            simp [pinnedBytes, sumBytes, hw]
          rw [hpin] at hs ⊢
          rw [hadd, List.filter_cons_of_neg (by simp [hw])]
          obtain ⟨h1, h2⟩ := ih { s with pin := wrap64 (s.pin + p.bytes) } (by
            show wrap64 (s.pin + p.bytes) + _ < _
            rw [wrap64_of_lt (by omega)]
            omega)
          rw [h1, h2]
          refine ⟨?_, rfl⟩
          show wrap64 (s.pin + p.bytes) + _ = _
          rw [wrap64_of_lt (by omega)]
          omega
        · have hadd : PinSums.add tight d s p =
              { s with stage := max s.stage p.bytes, biggest := if s.stage < p.bytes then p.name else s.biggest } := by
            unfold PinSums.add
            simp only [hp, Bool.not_true, Bool.false_eq_true, if_false, hw]
            by_cases hlt : s.stage < p.bytes
            · simp [hlt, Nat.max_eq_right (Nat.le_of_lt hlt)]
            · simp [hlt, Nat.max_eq_left (Nat.le_of_not_lt hlt)]
          have hpin : pinnedBytes tight (p :: ps) d = pinnedBytes tight ps d := by
            simp [pinnedBytes, hw]
          rw [hpin] at hs ⊢
          rw [hadd, List.filter_cons_of_pos (by simp [hp, hw]), List.foldl_cons]
          exact ih _ hs
      · have hadd : PinSums.add tight d s p = s := by simp [PinSums.add, hp]
        have hw : ¬ wouldPin tight d p = true := by simp [wouldPin, hp]
        have hpin : pinnedBytes tight (p :: ps) d = pinnedBytes tight ps d := by
          simp [pinnedBytes, hw]
        rw [hpin] at hs ⊢
        rw [hadd, List.filter_cons_of_neg (by simp [hp])]
        exact ih s hs
  have h0 := hfold ps ⟨0, 0, ""⟩ (by simpa using h)
  refine ⟨?_, h0.2⟩
  have hpin := h0.1
  rwa [Nat.zero_add] at hpin

/-! ## The states of the dial -/

/-- The `i`-th state: pinned layers down to none, then no lm_head, then no embedding. -/
def dialState (pinLayers : Int) (i : Nat) : Dial :=
  if i ≤ pinLayers.toNat then ⟨pinLayers - i, true, true⟩
  else ⟨min pinLayers 0, false, i = pinLayers.toNat + 1⟩

theorem dialState_turn (pinLayers : Int) (i : Nat) :
    (dialState pinLayers i).turn = some (dialState pinLayers (i + 1)) ∨
      (dialState pinLayers i).turn = none ∧ ∀ k, i ≤ k → dialState pinLayers k = dialState pinLayers i := by
  unfold dialState Dial.turn
  by_cases h1 : i ≤ pinLayers.toNat
  · rw [if_pos h1]
    by_cases h2 : i + 1 ≤ pinLayers.toNat
    · left
      rw [if_pos h2]
      simp only
      rw [if_pos (by omega)]
      simp only [Option.some.injEq, Dial.mk.injEq, and_self, and_true]
      omega
    · left
      rw [if_neg h2]
      simp only
      rw [if_neg (by omega), if_pos trivial, decide_eq_true (show i + 1 = pinLayers.toNat + 1 by omega)]
      simp only [Option.some.injEq, Dial.mk.injEq, and_self, and_true]
      omega
  · rw [if_neg h1]
    simp only
    rw [if_neg (by omega)]
    by_cases h2 : i = pinLayers.toNat + 1
    · left
      rw [if_neg (show ¬ i + 1 ≤ pinLayers.toNat by omega), decide_eq_true h2, decide_eq_false (show ¬ i + 1 = pinLayers.toNat + 1 by omega)]
      simp
    · right
      rw [decide_eq_false h2]
      refine ⟨by simp, fun k hk => ?_⟩
      rw [if_neg (show ¬ k ≤ pinLayers.toNat by omega), decide_eq_false (show ¬ k = pinLayers.toNat + 1 by omega)]

/-- The search stops at the first state that fits, or after its steps. -/
theorem searchDial_eq (fits : Dial → Bool) (pinLayers : Int) : ∀ (steps i : Nat), ∃ j, i ≤ j ∧ j ≤ i + steps ∧
    searchDial fits steps (dialState pinLayers i) = dialState pinLayers j ∧
      (∀ k, i ≤ k → k < j → fits (dialState pinLayers k) = false) ∧ (j = i + steps ∨ fits (dialState pinLayers j) = true) := by
  intro steps
  induction steps with
  | zero => intro i; exact ⟨i, Nat.le_refl _, Nat.le_refl _, rfl, fun k _ _ => by omega, .inl rfl⟩
  | succ steps ih =>
    intro i
    by_cases hf : fits (dialState pinLayers i) = true
    · exact ⟨i, Nat.le_refl _, by omega, by simp [searchDial, hf], fun k _ _ => by omega, .inr hf⟩
    · cases dialState_turn pinLayers i with
      | inl hturn =>
        obtain ⟨j, hij, hj, heq, hno, hend⟩ := ih (i + 1)
        refine ⟨j, by omega, by omega, ?_, ?_, ?_⟩
        · rw [searchDial, if_neg hf, hturn]
          exact heq
        · intro k hk hkj
          by_cases hki : k = i
          · rw [hki]
            simpa using hf
          · exact hno k (by omega) hkj
        · exact hend.imp_left fun h => by omega
      | inr hlast =>
        obtain ⟨hturn, hsame⟩ := hlast
        refine ⟨i + (steps + 1), by omega, Nat.le_refl _, ?_, ?_, .inl rfl⟩
        · rw [searchDial, if_neg hf, hturn]
          exact (hsame _ (by omega)).symm
        · intro k hk _
          rw [hsame k hk]
          simpa using hf

/-! ## The plan -/

variable {R : Type} {g : Graph R} {options : StoragePlanOptions}

/-- The planner streams. -/
def StreamingRequired (options : StoragePlanOptions) (g : Graph R) : Prop := pressure options g = true ∨ expertPage options g = true

def placementsOf (options : StoragePlanOptions) (g : Graph R) : List StoragePlacement :=
  g.tensors.map (initialPlacement options)

/-- What the state pins and the staging buffers for what it streams. -/
def dialNeed (options : StoragePlanOptions) (g : Graph R) (d : Dial) : Nat :=
  pinnedBytes true (placementsOf options g) d + stagingSlotsOf options * largestStreamed true (placementsOf options g) d

/-- The `i`-th state of the dial fits the budget. -/
def Fits (options : StoragePlanOptions) (g : Graph R) (i : Nat) : Prop :=
  dialNeed options g (dialState options.pinLayers i) ≤ options.ramBudgetBytes

instance (options : StoragePlanOptions) (g : Graph R) (i : Nat) : Decidable (Fits options g i) := inferInstanceAs (Decidable (_ ≤ _))

/-- Bytes of the weights a plan does not stream. -/
def residentBytes (g : Graph R) (plan : StoragePlan) : Nat :=
  (((g.tensors.zip plan.placements).filter fun e => e.1.isWeight && !e.2.stream).map (·.2.bytes)).sum

/-- No sum the planner makes wraps. -/
structure Totals (options : StoragePlanOptions) (g : Graph R) : Prop where
  weights : sumBytes (weightPlacements options g) < 2 ^ 64
  needs : ∀ i, dialNeed options g (dialState options.pinLayers i) < 2 ^ 64

theorem paged_weight {t : Tensor} (h : (initialPlacement options t).paged = true) : t.isWeight = true := by
  cases hw : t.isWeight with
  | true => rfl
  | false => simp [StoragePlacement.paged, initialPlacement, hw] at h

theorem weight_paged {t : Tensor} (hw : t.isWeight = true) (hb : (initialPlacement options t).bytes ≠ 0) :
    (initialPlacement options t).paged = true := by
  cases hm : options.preferMmap with
  | true => simpa [StoragePlacement.paged, initialPlacement, hw, hm] using hb
  | false => simpa [StoragePlacement.paged, initialPlacement, hw, hm] using hb

/-- Summing over the weights that `q` selects among those with bytes. -/
theorem sumBytes_paged (q : StoragePlacement → Bool) (hq : ∀ p, q p = true → p.paged = true) :
    sumBytes ((placementsOf options g).filter q) = sumBytes ((weightPlacements options g).filter q) := by
  unfold placementsOf weightPlacements
  induction g.tensors with
  | nil => rfl
  | cons t ts ih =>
    rw [List.map_cons]
    by_cases hw : t.isWeight = true
    · have hts : (t :: ts).filter (·.isWeight) = t :: ts.filter (·.isWeight) := List.filter_cons_of_pos hw
      rw [hts, List.map_cons]
      by_cases hqt : q (initialPlacement options t) = true
      · rw [List.filter_cons_of_pos hqt, List.filter_cons_of_pos hqt]
        simpa [sumBytes] using ih
      · rw [List.filter_cons_of_neg hqt, List.filter_cons_of_neg hqt]
        exact ih
    · have hqt : ¬ q (initialPlacement options t) = true := fun hqt => hw (paged_weight (hq _ hqt))
      have hts : (t :: ts).filter (·.isWeight) = ts.filter (·.isWeight) := List.filter_cons_of_neg hw
      rw [hts, List.filter_cons_of_neg hqt]
      exact ih

theorem wouldPin_paged {tight : Bool} {d : Dial} {p : StoragePlacement} (h : wouldPin tight d p = true) : p.paged = true := by
  simp only [wouldPin, Bool.and_eq_true] at h
  exact h.1.2

/-- When nothing would stream, everything that has bytes is pinned. -/
theorem pinned_all {d : Dial} (hstage : largestStreamed true (placementsOf options g) d = 0) :
    (∀ p ∈ weightPlacements options g, p.bytes ≠ 0 → p.expert = false) ∧
      pinnedBytes true (placementsOf options g) d = sumBytes (weightPlacements options g) := by
  have hpin : ∀ t ∈ g.tensors, t.isWeight = true → (initialPlacement options t).bytes ≠ 0 →
      wouldPin true d (initialPlacement options t) = true := by
    intro t ht hw hb
    by_cases hpin : wouldPin true d (initialPlacement options t) = true
    · exact hpin
    · have hmem : initialPlacement options t ∈ (placementsOf options g).filter fun p => p.paged && !wouldPin true d p :=
        List.mem_filter.mpr ⟨List.mem_map_of_mem ht, by simp [weight_paged hw hb, hpin]⟩
      have hle := le_maxBytes hmem
      unfold largestStreamed at hstage
      omega
  refine ⟨fun p hp hb => ?_, ?_⟩
  · obtain ⟨t, ht, rfl⟩ := List.mem_map.mp hp
    obtain ⟨ht, hw⟩ := List.mem_filter.mp ht
    have hpt := hpin t ht hw hb
    simp only [wouldPin, Bool.and_eq_true, Bool.not_eq_true'] at hpt
    exact hpt.1.1
  · unfold pinnedBytes
    rw [sumBytes_paged (wouldPin true d) fun p => wouldPin_paged]
    have hsum : ∀ ps : List StoragePlacement, (∀ p ∈ ps, p.bytes ≠ 0 → wouldPin true d p = true) →
        sumBytes (ps.filter (wouldPin true d)) = sumBytes ps := by
      intro ps
      induction ps with
      | nil => intro _; rfl
      | cons p ps ih =>
        intro h
        have hrest := ih fun q hq => h q (List.mem_cons_of_mem _ hq)
        by_cases hw : wouldPin true d p = true
        · rw [List.filter_cons_of_pos hw]
          simpa [sumBytes] using hrest
        · have hb : p.bytes = 0 := by
            by_cases hb : p.bytes = 0
            · exact hb
            · exact absurd (h p List.mem_cons_self hb) hw
          rw [List.filter_cons_of_neg hw]
          simpa [sumBytes, hb] using hrest
    refine hsum _ fun p hp hb => ?_
    obtain ⟨t, ht, rfl⟩ := List.mem_map.mp hp
    obtain ⟨ht, hw⟩ := List.mem_filter.mp ht
    exact hpin t ht hw hb

/-- A state that fits streams something, since not everything can be pinned. -/
theorem streams_of_fits (hreq : StreamingRequired options g) (hw : sumBytes (weightPlacements options g) < 2 ^ 64) {i : Nat}
    (hfit : Fits options g i) : 0 < largestStreamed true (placementsOf options g) (dialState options.pinLayers i) := by
  apply Nat.pos_of_ne_zero
  intro hstage
  obtain ⟨hexpert, hall⟩ := pinned_all hstage
  have hnone : totalBytes ((weightPlacements options g).filter (·.expert)) = 0 := by
    rw [totalBytes_eq (Nat.lt_of_le_of_lt (sumBytes_filter_le _ _) hw)]
    apply List.sum_eq_zero
    intro n hn
    obtain ⟨p, hp, rfl⟩ := List.mem_map.mp hn
    obtain ⟨hp, he⟩ := List.mem_filter.mp hp
    by_cases hb : p.bytes = 0
    · exact hb
    · rw [hexpert p hp hb] at he
      cases he
  have hpressure : pressure options g = true := by
    apply hreq.elim id
    intro hpage
    simp [expertPage, hnone] at hpage
  simp only [pressure, Bool.and_eq_true, decide_eq_true_eq, totalBytes_eq hw] at hpressure
  unfold Fits dialNeed at hfit
  rw [hall] at hfit
  omega

/-! ## The plan a state gives -/

theorem settle_stream {d : Dial} (t : Tensor) :
    (settlePlacement true d (initialPlacement options t)).stream =
      ((initialPlacement options t).paged && !wouldPin true d (initialPlacement options t)) := by
  unfold settlePlacement
  by_cases hp : (initialPlacement options t).paged = true
  · by_cases hw : wouldPin true d (initialPlacement options t) = true
    · have he : (initialPlacement options t).expert = false := by
        simp only [wouldPin, Bool.and_eq_true, Bool.not_eq_true'] at hw
        exact hw.1.1
      simp [hp, hw, he]
    · simp [hp, hw]
  · have hs : (initialPlacement options t).stream = false := rfl
    simp [hp, hs]

/-- Settling leaves what the placement says of its tensor. -/
theorem settle_same (tight : Bool) (d : Dial) (p : StoragePlacement) : (settlePlacement tight d p).tensorId = p.tensorId ∧
    (settlePlacement tight d p).name = p.name ∧ (settlePlacement tight d p).bytes = p.bytes ∧
      (settlePlacement tight d p).expert = p.expert := by
  unfold settlePlacement
  split
  · exact ⟨rfl, rfl, rfl, rfl⟩
  split
  · exact ⟨rfl, rfl, rfl, rfl⟩
  · exact ⟨rfl, rfl, rfl, rfl⟩

theorem settle_bytes {tight : Bool} {d : Dial} (p : StoragePlacement) : (settlePlacement tight d p).bytes = p.bytes :=
  (settle_same tight d p).2.2.1

theorem settle_tensorId {tight : Bool} {d : Dial} (p : StoragePlacement) :
    (settlePlacement tight d p).tensorId = p.tensorId :=
  (settle_same tight d p).1

/-- A plan has a placement a tensor, of the tensor's resident size. -/
theorem buildStoragePlan_placements {plan : StoragePlan} (h : buildStoragePlan g options = .ok plan) :
    ∃ place : Tensor → StoragePlacement, plan.placements = g.tensors.map place ∧
      ∀ t, (place t).tensorId = t.id ∧ (place t).bytes = weightResidentBytes t := by
  have hsettled : ∀ tight d t, (settlePlacement tight d (initialPlacement options t)).tensorId = t.id ∧
      (settlePlacement tight d (initialPlacement options t)).bytes = weightResidentBytes t :=
    fun tight d t => ⟨settle_tensorId _, settle_bytes _⟩
  unfold buildStoragePlan at h
  simp only at h
  split at h
  · split at h
    · split at h
      · exact absurd h (fail_ne_ok _ _ _)
      · cases h
        exact ⟨_, List.map_map, fun t => hsettled _ _ t⟩
    · cases h
      exact ⟨_, List.map_map, fun t => hsettled _ _ t⟩
  · cases h
    exact ⟨_, rfl, fun t => ⟨rfl, rfl⟩⟩

/-- A plan streams only when streaming is enabled and required. -/
theorem buildStoragePlan_streams {plan : StoragePlan} (h : buildStoragePlan g options = .ok plan) {p : StoragePlacement}
    (hp : p ∈ plan.placements) (hs : p.stream = true) : options.enableStreaming = true ∧ plan.streamingRequired = true := by
  have henabled : (pressure options g || expertPage options g) = true → options.enableStreaming = true := by
    intro hreq
    simp only [pressure, expertPage, Bool.or_eq_true, Bool.and_eq_true] at hreq
    rcases hreq with hreq | hreq
    · exact hreq.1.1
    · exact hreq.1.1
  unfold buildStoragePlan at h
  simp only at h
  split at h
  · next hreq =>
    split at h
    · split at h
      · exact absurd h (fail_ne_ok _ _ _)
      · cases h
        exact ⟨henabled hreq, rfl⟩
    · cases h
      exact ⟨henabled hreq, rfl⟩
  · cases h
    rcases List.mem_map.mp hp with ⟨t, -, rfl⟩
    cases hs

/-- What is not streamed is what the state pins. -/
theorem residentBytes_eq {d : Dial} {plan : StoragePlan}
    (hps : plan.placements = (placementsOf options g).map (settlePlacement true d)) :
    residentBytes g plan = pinnedBytes true (placementsOf options g) d := by
  unfold residentBytes
  rw [hps]
  unfold pinnedBytes placementsOf
  induction g.tensors with
  | nil => rfl
  | cons t ts ih =>
    rw [List.map_cons, List.map_cons, List.zip_cons_cons]
    by_cases hpin : wouldPin true d (initialPlacement options t) = true
    · have hweight := paged_weight (wouldPin_paged hpin)
      rw [List.filter_cons_of_pos hpin, List.filter_cons_of_pos (by simp [settle_stream, hpin, hweight])]
      simp only [List.map_cons, List.sum_cons, sumBytes, settle_bytes] at ih ⊢
      rw [ih]
    · rw [List.filter_cons_of_neg hpin]
      by_cases hres : (t.isWeight && !(settlePlacement true d (initialPlacement options t)).stream) = true
      · have hb : (initialPlacement options t).bytes = 0 := by
          simp only [settle_stream, Bool.and_eq_true, Bool.not_eq_true', Bool.and_eq_false_iff] at hres
          by_cases hb : (initialPlacement options t).bytes = 0
          · exact hb
          · have hpaged := weight_paged hres.1 hb
            simp [hpaged, hpin] at hres
        rw [List.filter_cons_of_pos (by exact hres)]
        simp only [List.map_cons, List.sum_cons, settle_bytes, hb, Nat.zero_add]
        exact ih
      · rw [List.filter_cons_of_neg (by exact hres)]
        exact ih

/-- The staging buffers have the size of the largest weight that is streamed. -/
theorem maxBytes_streamed {d : Dial} :
    maxBytes (((placementsOf options g).map (settlePlacement true d)).filter (·.stream)) =
      largestStreamed true (placementsOf options g) d := by
  have hfold : ∀ (ts : List Tensor) (n : Nat),
      (((ts.map (initialPlacement options)).map (settlePlacement true d)).filter (·.stream)).foldl (fun n p => max n p.bytes) n =
        ((ts.map (initialPlacement options)).filter fun p => p.paged && !wouldPin true d p).foldl (fun n p => max n p.bytes) n := by
    intro ts
    induction ts with
    | nil => intro n; rfl
    | cons t ts ih =>
      intro n
      rw [List.map_cons, List.map_cons]
      by_cases hs : ((initialPlacement options t).paged && !wouldPin true d (initialPlacement options t)) = true
      · rw [List.filter_cons_of_pos (by rw [settle_stream]; exact hs), List.filter_cons_of_pos (by exact hs), List.foldl_cons,
          List.foldl_cons, settle_bytes]
        exact ih _
      · rw [List.filter_cons_of_neg (by rw [settle_stream]; exact hs), List.filter_cons_of_neg (by exact hs)]
        exact ih n
  exact hfold g.tensors 0

/-- The outcome of planning under a tight budget: the state the search ends with decides. -/
theorem buildStoragePlan_tight (hbudget : 2 ^ 20 ≤ options.ramBudgetBytes) (hreq : StreamingRequired options g)
    (htot : Totals options g) : ∃ j, (j = 64 ∨ Fits options g j) ∧ j ≤ 64 ∧ (∀ k, k < j → ¬ Fits options g k) ∧
      if 0 < largestStreamed true (placementsOf options g) (dialState options.pinLayers j) ∧ ¬ Fits options g j then
        ∃ e, buildStoragePlan g options = .error e
      else ∃ plan, buildStoragePlan g options = .ok plan ∧
        plan.placements = (placementsOf options g).map (settlePlacement true (dialState options.pinLayers j)) ∧
        plan.stagingBytes = (if 0 < largestStreamed true (placementsOf options g) (dialState options.pinLayers j) then
          largestStreamed true (placementsOf options g) (dialState options.pinLayers j)
          else maxBytes (weightPlacements options g)) ∧
        plan.stagingSlots = stagingSlotsOf options ∧
        plan.expertCacheBytes ≤ options.ramBudgetBytes - dialNeed options g (dialState options.pinLayers j) := by
  have hneed : ∀ i, (pinAndStaging true (placementsOf options g) (dialState options.pinLayers i)).need (stagingSlotsOf options) =
      dialNeed options g (dialState options.pinLayers i) := by
    intro i
    have hlt := htot.needs i
    unfold dialNeed at hlt ⊢
    have hsums := @pinAndStaging_eq true (placementsOf options g) (dialState options.pinLayers i) (by omega)
    unfold PinSums.need
    rw [hsums.1, hsums.2, Nat.mul_comm (largestStreamed _ _ _), wrap64_of_lt (n := stagingSlotsOf options * _) (by omega),
      wrap64_of_lt hlt]
  have hstart : (⟨options.pinLayers, true, true⟩ : Dial) = dialState options.pinLayers 0 := by simp [dialState]
  have htight : tightBudget options = true := decide_eq_true hbudget
  have hstream : (pressure options g || expertPage options g) = true := by
    apply hreq.elim
    · intro h; rw [h]; rfl
    · intro h; rw [h, Bool.or_true]
  obtain ⟨j, -, hj, hsearch, hbefore, hend⟩ := searchDial_eq (fun d => decide
    ((pinAndStaging true (placementsOf options g) d).need (stagingSlotsOf options) ≤ options.ramBudgetBytes)) options.pinLayers 64 0
  rw [Nat.zero_add] at hj hend
  have hstage : (pinAndStaging true (placementsOf options g) (dialState options.pinLayers j)).stage =
      largestStreamed true (placementsOf options g) (dialState options.pinLayers j) := by
    have hlt := htot.needs j
    unfold dialNeed at hlt
    exact (pinAndStaging_eq (by omega)).2
  refine ⟨j, hend.imp_right fun h => ?_, hj, fun k hk hfit => ?_, ?_⟩
  · unfold Fits
    rw [← hneed j]
    simpa using h
  · have hno := hbefore k (Nat.zero_le k) hk
    simp only [hneed, decide_eq_false_iff_not] at hno
    exact hno hfit
  have hfits : Fits options g j ↔ ¬ options.ramBudgetBytes <
      (pinAndStaging true (placementsOf options g) (dialState options.pinLayers j)).need (stagingSlotsOf options) := by
    rw [hneed j, Nat.not_lt]
    exact Iff.rfl
  unfold buildStoragePlan
  dsimp only
  rw [if_pos hstream, if_pos htight]
  simp only [htight]
  rw [hstart, show g.tensors.map (initialPlacement options) = placementsOf options g from rfl, hsearch, hstage]
  by_cases hbad : 0 < largestStreamed true (placementsOf options g) (dialState options.pinLayers j) ∧ ¬ Fits options g j
  · rw [if_pos hbad, if_pos ⟨hbad.1, not_not.mp fun h => hbad.2 (hfits.mpr h)⟩]
    exact ⟨_, rfl⟩
  · rw [if_neg hbad, if_neg fun h => hbad ⟨h.1, fun hf => hfits.mp hf h.2⟩]
    refine ⟨_, rfl, rfl, ?_, rfl, ?_⟩
    · simp only [maxBytes_streamed]
    · rw [hneed j]
      exact Nat.min_le_right _ _

/-- The planner's answer is the dial's: a plan exactly when some state fits, and the plan within the budget. -/
structure MeetsBudget (options : StoragePlanOptions) (g : Graph R) : Prop where
  found : (∃ plan, buildStoragePlan g options = .ok plan) ↔ ∃ i, Fits options g i
  within : ∀ plan, buildStoragePlan g options = .ok plan →
    residentBytes g plan + plan.stagingSlots.toNat * plan.stagingBytes + plan.expertCacheBytes ≤ options.ramBudgetBytes

theorem storage_plan_fits_iff (hbudget : 2 ^ 20 ≤ options.ramBudgetBytes) (hreq : StreamingRequired options g)
    (htot : Totals options g) :
    MeetsBudget options g ↔
      (∃ i ≤ 64, Fits options g i) ∨
        ((∀ i, ¬ Fits options g i) ∧ 0 < largestStreamed true (placementsOf options g) (dialState options.pinLayers 64)) := by
  obtain ⟨j, hj, hj64, hbefore, hplan⟩ := buildStoragePlan_tight hbudget hreq htot
  by_cases hfit : Fits options g j
  · -- the search ended with a state that fits
    have hpos := streams_of_fits hreq htot.weights hfit
    rw [if_neg (fun h => h.2 hfit), if_pos hpos] at hplan
    obtain ⟨plan, hok, hps, hstaging, hslots, hcache⟩ := hplan
    refine iff_of_true ⟨iff_of_true ⟨plan, hok⟩ ⟨j, hfit⟩, fun plan' hok' => ?_⟩ (.inl ⟨j, hj64, hfit⟩)
    obtain rfl : plan = plan' := Except.ok.inj (hok.symm.trans hok')
    have hres := residentBytes_eq hps
    unfold Fits at hfit
    unfold dialNeed at hfit hcache
    rw [hres, hstaging, hslots, Int.toNat_natCast]
    omega
  · -- none of the states tried fits
    have hj : j = 64 := hj.resolve_right hfit
    subst hj
    have hnone : ∀ i ≤ 64, ¬ Fits options g i := by
      intro i hi
      by_cases he : i = 64
      · exact he ▸ hfit
      · exact hbefore i (by omega)
    by_cases hpos : 0 < largestStreamed true (placementsOf options g) (dialState options.pinLayers 64)
    · rw [if_pos ⟨hpos, hfit⟩] at hplan
      obtain ⟨e, herr⟩ := hplan
      have hno : ∀ plan, buildStoragePlan g options ≠ .ok plan := fun plan hok => by rw [herr] at hok; cases hok
      apply Iff.intro
      · intro hmeets
        refine .inr ⟨fun i hi => ?_, hpos⟩
        obtain ⟨plan, hok⟩ := hmeets.found.mpr ⟨i, hi⟩
        exact hno plan hok
      · intro h
        have hall : ∀ i, ¬ Fits options g i := by
          apply h.elim
          · intro h i _
            obtain ⟨k, hk, hfk⟩ := h
            exact hnone k hk hfk
          · exact And.left
        exact ⟨iff_of_false (fun h => hno _ h.choose_spec) (fun h => hall _ h.choose_spec), fun plan hok => absurd hok (hno plan)⟩
    · rw [if_neg fun h => hpos h.1] at hplan
      obtain ⟨plan, hok, hps, -, -, -⟩ := hplan
      refine iff_of_false (fun hmeets => ?_) (fun h => h.elim (fun h => hnone _ h.choose_spec.1 h.choose_spec.2) fun h => hpos h.2)
      have hwithin := hmeets.within plan hok
      rw [residentBytes_eq hps] at hwithin
      have hzero : largestStreamed true (placementsOf options g) (dialState options.pinLayers 64) = 0 := by omega
      apply hfit
      unfold Fits dialNeed
      rw [hzero]
      omega

/-! ## Two graphs -/

/-- Sums this small do not wrap. -/
theorem totals_of_small (h : 3 * sumBytes (placementsOf options g) < 2 ^ 64) : Totals options g := by
  have hmax : ∀ ps : List StoragePlacement, maxBytes ps ≤ sumBytes ps := by
    have hfold : ∀ (ps : List StoragePlacement) (n : Nat), ps.foldl (fun n p => max n p.bytes) n ≤ n + sumBytes ps := by
      intro ps
      induction ps with
      | nil => intro n; exact Nat.le_refl _
      | cons p ps ih =>
        intro n
        have := ih (max n p.bytes)
        simp only [List.foldl_cons, sumBytes, List.map_cons, List.sum_cons] at this ⊢
        omega
    intro ps
    have := hfold ps 0
    rwa [Nat.zero_add] at this
  refine ⟨?_, fun i => ?_⟩
  · have hsub : List.Sublist (weightPlacements options g) (placementsOf options g) := List.filter_sublist.map _
    have := (hsub.map (·.bytes)).sum_le_sum (fun _ _ => Nat.zero_le _)
    unfold sumBytes at h ⊢
    omega
  · have hpin := sumBytes_filter_le (wouldPin true (dialState options.pinLayers i)) (placementsOf options g)
    have hstage := hmax ((placementsOf options g).filter fun p => p.paged && !wouldPin true (dialState options.pinLayers i) p)
    have hle := sumBytes_filter_le (fun p => p.paged && !wouldPin true (dialState options.pinLayers i) p) (placementsOf options g)
    have hslots : stagingSlotsOf options ≤ 2 := by
      unfold stagingSlotsOf
      split
      · exact Nat.le_refl _
      · omega
    have hmul := Nat.mul_le_mul hslots (Nat.le_refl (largestStreamed true (placementsOf options g) (dialState options.pinLayers i)))
    unfold dialNeed pinnedBytes
    unfold largestStreamed at hmul ⊢
    omega

/-- 1 MiB of RAM, two staging buffers. -/
def phoneOptions : StoragePlanOptions := ⟨2 ^ 20, true, true, 0, 0, 2⟩

def weightTensor (id : TensorId) (name : String) (rows cols : Int) : Tensor :=
  ⟨id, name, .f32, [rows, cols], .unspecified, true, "m.gguf#" ++ name, .f32⟩

/-- Three layers of 400 KiB: streamed one after the other. -/
def layersGraph : Graph Unit := ⟨kCurrentIrVersion, "layers", "", "",
  [weightTensor 1 "blk.0.w" 256 400, weightTensor 2 "blk.1.w" 256 400, weightTensor 3 "blk.2.w" 256 400], [], [], [], []⟩

theorem layers_plan_fits : MeetsBudget phoneOptions layersGraph :=
  (storage_plan_fits_iff (by decide) (.inl (by decide +kernel)) (totals_of_small (by decide +kernel))).mpr
    (.inl ⟨0, by decide, by decide +kernel⟩)

/-- A final norm of 4 MiB. -/
def normGraph : Graph Unit := ⟨kCurrentIrVersion, "norm", "", "", [weightTensor 1 "model.norm.weight" 1024 1024], [], [], [], []⟩

/-- No state fits, nothing is streamed, and the plan is four times the budget. -/
theorem norm_plan_exceeds : StreamingRequired phoneOptions normGraph ∧ Totals phoneOptions normGraph ∧
    (∀ i, ¬ Fits phoneOptions normGraph i) ∧ ∃ plan, buildStoragePlan normGraph phoneOptions = .ok plan ∧
      residentBytes normGraph plan = 4 * phoneOptions.ramBudgetBytes := by
  have hnone : ∀ i, ¬ Fits phoneOptions normGraph i := by
    have hthree : ∀ i < 3, ¬ Fits phoneOptions normGraph i := by decide +kernel
    intro i
    by_cases hi : i < 3
    · exact hthree i hi
    · have hlast : dialState phoneOptions.pinLayers i = dialState phoneOptions.pinLayers 2 := by
        have hP : phoneOptions.pinLayers = 0 := rfl
        simp only [dialState, hP, Int.toNat_zero]
        rw [if_neg (by omega), if_neg (by omega), decide_eq_false (by omega), decide_eq_false (by omega)]
      unfold Fits
      rw [hlast]
      exact hthree 2 (by omega)
  refine ⟨.inl (by decide +kernel), totals_of_small (by decide +kernel), hnone, ?_⟩
  have hrun : (match buildStoragePlan normGraph phoneOptions with
    | .ok plan => decide (residentBytes normGraph plan = 4 * phoneOptions.ramBudgetBytes)
    | .error _ => false) = true := by decide +kernel
  cases hok : buildStoragePlan normGraph phoneOptions with
  | error e => rw [hok] at hrun; cases hrun
  | ok plan =>
    rw [hok] at hrun
    exact ⟨plan, rfl, of_decide_eq_true hrun⟩

end Uaii.Planner
