/-
  Uaii.Kernels.MoeListed — the two MoE kernels on the same experts.

  The session hands the listed kernel a view for every matrix: floats, or the packed
  blocks of a streamed weight (`Session::upload_streamed_weight`), or null for an expert
  that was not staged. The kernel reads every view as floats. A packed matrix has at
  most 34 bytes for 32 elements, so reading it as floats runs past its end.

  Proved: the listed kernel's output is the packed bank kernel's exactly when every
  expert that some row is routed to came as floats, or rows are empty
  (`listed_eq_bank_iff`).
-/

import Mathlib.Algebra.Order.Field.Rat
import Uaii.Kernels.Moe
import Uaii.Lib.Lists
import Uaii.Quant.GgufDequant

namespace Uaii.Kernels

open Uaii.Quant Poison

variable {K : Type} [Field K] [LinearOrder K]

/-! ## What the session stages -/

/-- A buffer of packed blocks, seen through a float pointer. -/
def floatWords (F : FloatBits K) (bytes : List UInt8) : List K :=
  (List.range (bytes.length / 4)).map fun i => F.f32 (u32At bytes (4 * i))

/-- The views of a `rows × cols` matrix whose (dequantised) elements are `m`. -/
inductive Staged (F : FloatBits K) (rows cols : Nat) (m : List K) : TensorView K → Prop
  | floats : Staged F rows cols m (.ofF32 [rows, cols] m)
  | packed (f : QuantFormat) (bytes : List UInt8) : isGgufBlockQuant f = true →
      bytes.length = packedNbytes f (rows * cols) → dequantGgufRow F f bytes (rows * cols : Nat) = .ok m →
      Staged F rows cols m ⟨.unknown, [rows, cols], some (floatWords F bytes), f⟩
  | absent (dtype : DType) (f : QuantFormat) : Staged F rows cols m ⟨dtype, [rows, cols], none, f⟩

structure ExpertMats (K : Type) where
  gate : List K
  up : List K
  down : List K

/-- Matrices of the right size, and their views. -/
structure StagedExpert (F : FloatBits K) (I D : Nat) (m : ExpertMats K) (triples : List (TensorView K)) (e : Nat) :
    Prop where
  gate_length : m.gate.length = I * D
  up_length : m.up.length = I * D
  down_length : m.down.length = D * I
  gate : Staged F I D m.gate (gateOf triples e)
  up : Staged F I D m.up (upOf triples e)
  down : Staged F D I m.down (downOf triples e)

/-- All of an expert's views are floats, by the kernels' own test. -/
def floatExpert (triples : List (TensorView K)) (e : Nat) : Bool :=
  !(gateOf triples e).isQuantized && !(upOf triples e).isQuantized && !(downOf triples e).isQuantized

/-- The packed bank of the experts' matrices. -/
def bank (E rows cols : Nat) (m : Nat → List K) : TensorView K := .ofF32 [E, rows, cols] ((List.range E).flatMap m)

section Views

variable {F : FloatBits K} {rows cols : Nat} {m : List K} {v : TensorView K}

omit [LinearOrder K] in
theorem Staged.shape (h : Staged F rows cols m v) : v.shape = [(rows : Int), (cols : Int)] := by
  cases h <;> rfl

omit [LinearOrder K] in
/-- A view of floats that is there reads as its matrix. -/
theorem Staged.read_floats (h : Staged F rows cols m v) (hdata : v.data.isSome = true) (hq : v.isQuantized = false) :
    v.f32 = m := by
  cases h with
  | floats => rfl
  | packed f bytes hf _ _ => simp [TensorView.isQuantized, hf] at hq
  | absent => cases hdata

theorem packedNbytes_short {f : QuantFormat} (hf : isGgufBlockQuant f = true) {n : Nat} (hn : 0 < n) :
    packedNbytes f n / 4 < n := by
  rw [packedNbytes_block hf]
  have hle := wrap64_le (n / blockElems f * blockBytes f)
  have hbound : n / blockElems f * blockBytes f ≤ 2 * n := by
    cases f <;> simp_all only [isGgufBlockQuant, blockElems, blockBytes, reduceCtorEq]
    all_goals omega
  omega

omit [LinearOrder K] in
/-- A packed view has too few words to be read as floats to the end. -/
theorem Staged.read_packed (h : Staged F rows cols m v) (hdata : v.data.isSome = true) (hq : v.isQuantized = true)
    (hpos : 0 < rows * cols) : v.f32[rows * cols - 1]? = none := by
  cases h with
  | floats => cases hq
  | packed f bytes hf hlen _ =>
    refine List.getElem?_eq_none ?_
    show (floatWords F bytes).length ≤ _
    have hshort := packedNbytes_short hf hpos
    rw [floatWords, List.length_map, List.length_range, hlen]
    omega
  | absent => cases hdata

end Views

/-! ## Cells -/

section Cells

variable (exp : K → K) {D I : Nat} {xb : Nat → K}

omit [LinearOrder K] in
theorem hidden_isSome (m : ExpertReads K) (i : Nat) :
    (hidden exp D xb m i).isSome = true ↔ ∀ d < D, (m.gate (i * D + d)).isSome = true ∧ (m.up (i * D + d)).isSome = true := by
  unfold hidden
  rw [mul_isSome, Option.isSome_map, Bool.and_eq_true, sumTo_isSome, sumTo_isSome]
  simp only [Option.isSome_map]
  exact ⟨fun h d hd => ⟨h.1 d hd, h.2 d hd⟩, fun h => ⟨fun d hd => (h d hd).1, fun d hd => (h d hd).2⟩⟩

omit [LinearOrder K] in
theorem expertOut_isSome (m : ExpertReads K) (o : Nat) :
    (expertOut exp D I xb m o).isSome = true ↔
      ∀ i < I, (∀ d < D, (m.gate (i * D + d)).isSome = true ∧ (m.up (i * D + d)).isSome = true) ∧
        (m.down (o * I + i)).isSome = true := by
  unfold expertOut
  rw [sumTo_isSome]
  simp only [mul_isSome, Bool.and_eq_true, hidden_isSome]

theorem index_lt {i m d n : Nat} (hi : i < m) (hd : d < n) : i * n + d < m * n := by
  have hle : (i + 1) * n ≤ m * n := Nat.mul_le_mul_right _ hi
  rw [Nat.succ_mul] at hle
  omega

/-- Reads that agree inside the matrices give the same cell. -/
theorem moeCell_congr {experts experts' : Nat → ExpertReads K} {top : List (K × Nat)} {o : Nat} (ho : o < D)
    (h : ∀ t ∈ top, (∀ j < I * D, (experts t.2).gate j = (experts' t.2).gate j) ∧
      (∀ j < I * D, (experts t.2).up j = (experts' t.2).up j) ∧ ∀ j < D * I, (experts t.2).down j = (experts' t.2).down j) :
    moeCell exp D I xb experts top o = moeCell exp D I xb experts' top o := by
  refine sumOver_congr fun t ht => ?_
  obtain ⟨hg, hu, hd⟩ := h t ht
  congr 1
  refine sumTo_congr fun i hi => ?_
  rw [hd _ (index_lt ho hi)]
  congr 1
  unfold hidden
  have hgs : (sumTo D fun d => ((experts t.2).gate (i * D + d)).map (xb d * ·)) =
      sumTo D fun d => ((experts' t.2).gate (i * D + d)).map (xb d * ·) :=
    sumTo_congr fun d hd' => by rw [hg _ (index_lt hi hd')]
  have hus : (sumTo D fun d => ((experts t.2).up (i * D + d)).map (xb d * ·)) =
      sumTo D fun d => ((experts' t.2).up (i * D + d)).map (xb d * ·) :=
    sumTo_congr fun d hd' => by rw [hu _ (index_lt hi hd')]
  simp only [hgs, hus]

theorem moeCell_isSome {experts : Nat → ExpertReads K} {top : List (K × Nat)} {o : Nat} :
    (moeCell exp D I xb experts top o).isSome = true ↔ ∀ t ∈ top, (expertOut exp D I xb (experts t.2) o).isSome = true := by
  unfold moeCell
  rw [sumOver_isSome]
  simp only [Option.isSome_map]

/-- A matrix that ends early spoils the last cell of the row. -/
theorem moeCell_none {experts : Nat → ExpertReads K} {top : List (K × Nat)} (hD : 0 < D) (hI : 0 < I) {t : K × Nat}
    (ht : t ∈ top) (h : (experts t.2).gate (I * D - 1) = none ∨ (experts t.2).up (I * D - 1) = none ∨
      (experts t.2).down (D * I - 1) = none) : moeCell exp D I xb experts top (D - 1) = none := by
  have hlast : ∀ a b : Nat, 0 < a → 0 < b → (a - 1) * b + (b - 1) = a * b - 1 := by
    intro a b ha hb
    obtain ⟨a, rfl⟩ := Nat.exists_eq_succ_of_ne_zero (Nat.ne_of_gt ha)
    rw [Nat.succ_sub_one, Nat.succ_mul]
    omega
  rw [← Option.not_isSome_iff_eq_none, Bool.not_eq_true, ← Bool.not_eq_true, moeCell_isSome]
  intro hall
  have hread := (expertOut_isSome exp _ _).mp (hall t ht) (I - 1) (by omega)
  obtain ⟨hg, hu⟩ := hread.1 (D - 1) (by omega)
  have hd := hread.2
  rw [hlast I D hI hD] at hg hu
  rw [hlast D I hD hI] at hd
  rcases h with h | h | h
  · rw [h] at hg; cases hg
  · rw [h] at hu; cases hu
  · rw [h] at hd; cases hd

end Cells

/-! ## The kernels -/

section Kernels

variable (exp : K → K) (ps : PartialSort K)

theorem ranked_lt {probs : List K} {E k b : Nat} {t : K × Nat} (h : t ∈ ranked ps probs E k b) : t.2 < E := by
  have hmem := (ps.perm _ _).mem_iff.mp (List.mem_of_mem_take h)
  obtain ⟨e, he, rfl⟩ := List.mem_map.mp hmem
  exact List.mem_range.mp he

omit [LinearOrder K] in
/-- Every expert's gate view has the width, there or not. -/
theorem listedWidth_eq {F : FloatBits K} {D E I : Nat} {mats : Nat → ExpertMats K} {triples : List (TensorView K)}
    (hE : 0 < E) (hst : ∀ e < E, StagedExpert F I D (mats e) triples e) : listedWidth triples E = I := by
  have hdim : ∀ e < E, (gateOf triples e).dim 0 = I := by
    intro e he
    rw [TensorView.dim, (hst e he).gate.shape]
    rfl
  have hrank : (gateOf triples 0).rank = 2 := by
    rw [TensorView.rank, (hst 0 hE).gate.shape]
    rfl
  unfold listedWidth
  cases hfind : (List.range E).find? fun e => (gateOf triples e).data.isSome ∧ (gateOf triples e).rank = 2 with
  | none => simp [hrank, hdim 0 hE]
  | some e =>
    have he := List.mem_range.mp (List.mem_of_find?_eq_some hfind)
    simp [hdim e he, hdim 0 hE]

/-- What success of the listed kernel says. -/
theorem listed_ok {F : FloatBits K} {B D E I : Nat} {topK : Int} {xs probs : List K} {mats : Nat → ExpertMats K}
    {triples : List (TensorView K)} {Y : List (Option K)} (hst : ∀ e < E, StagedExpert F I D (mats e) triples e)
    (h : moeExpertsSwigluListedF32 exp ps (.ofF32 [(B : Int), D] xs) (.ofF32 [(B : Int), E] probs) triples E topK
      [B, D] = .ok Y) :
    0 < E ∧ 0 < I ∧ (∀ b < B, ∀ t ∈ ranked ps probs E (topCount topK E) b, missing triples t.2 = false) ∧
      Y = moeRows exp B D I xs (listedReads triples) (ranked ps probs E (topCount topK E)) := by
  unfold moeExpertsSwigluListedF32 at h
  split at h
  · cases h
  rename_i hrank
  have hE : 0 < E := by
    by_contra hE
    exact hrank (.inr (.inr (.inr (by omega))))
  simp only [TensorView.dim, TensorView.ofF32, List.getD_cons_zero, List.getD_cons_succ, listedWidth_eq hE hst,
    Int.toNat_natCast, ne_eq, not_true_eq_false, or_self, if_false] at h
  split at h
  · cases h
  rename_i hI
  split at h
  · cases h
  split at h
  · cases h
  split at h
  · cases h
  rename_i hfind
  refine ⟨hE, by omega, fun b hb t ht => ?_, (Except.ok.inj h).symm⟩
  have hnone := List.find?_eq_none.mp hfind t.2
    (List.mem_flatMap.mpr ⟨b, List.mem_range.mpr hb, List.mem_map.mpr ⟨t, ht, rfl⟩⟩)
  simpa using hnone

/-- The reads of the packed banks. -/
def bankReads (E I D : Nat) (mats : Nat → ExpertMats K) (e : Nat) : ExpertReads K where
  gate j := (bank E I D fun e => (mats e).gate).f32[e * (I * D) + j]?
  up j := (bank E I D fun e => (mats e).up).f32[e * (I * D) + j]?
  down j := (bank E D I fun e => (mats e).down).f32[e * (D * I) + j]?

theorem bank_run {B D E I : Nat} {topK : Int} {xs probs : List K} {mats : Nat → ExpertMats K}
    (hx : xs.length = B * D) (hprobs : probs.length = B * E) :
    moeExpertsSwigluF32 exp ps (.ofF32 [(B : Int), D] xs) (bank E I D fun e => (mats e).gate)
      (bank E I D fun e => (mats e).up) (bank E D I fun e => (mats e).down) (.ofF32 [(B : Int), E] probs) [B, D] E topK =
    .ok (moeRows exp B D I xs (bankReads E I D mats) (ranked ps probs E (topCount topK E))) := by
  have hpos : ¬((I : Int) < 0 ∨ (D : Int) < 0 ∨ (E : Int) < 0) := by omega
  unfold moeExpertsSwigluF32
  simp only [TensorView.rank, TensorView.dim, TensorView.ofF32, bank, List.length_cons, List.length_nil, List.getD_cons_zero,
    List.getD_cons_succ, ne_eq, not_true_eq_false, or_self, if_false, hpos, Int.toNat_natCast]
  rw [if_neg]
  · rfl
  · simp [readsOk, TensorView.f32, hx, hprobs]

omit [LinearOrder K] in
theorem bankReads_eq {F : FloatBits K} {E I D : Nat} {mats : Nat → ExpertMats K} {triples : List (TensorView K)}
    (hst : ∀ e < E, StagedExpert F I D (mats e) triples e) {e : Nat} (he : e < E) :
    (∀ j < I * D, (bankReads E I D mats e).gate j = (mats e).gate[j]?) ∧
    (∀ j < I * D, (bankReads E I D mats e).up j = (mats e).up[j]?) ∧
    ∀ j < D * I, (bankReads E I D mats e).down j = (mats e).down[j]? :=
  ⟨Lists.getElem?_flatMap_range E (fun i hi => (hst i hi).gate_length) e he,
    Lists.getElem?_flatMap_range E (fun i hi => (hst i hi).up_length) e he,
    Lists.getElem?_flatMap_range E (fun i hi => (hst i hi).down_length) e he⟩

/-- The bank kernel reads every element it needs. -/
theorem bank_cell_isSome {F : FloatBits K} {E I D : Nat} {mats : Nat → ExpertMats K} {triples : List (TensorView K)}
    (hst : ∀ e < E, StagedExpert F I D (mats e) triples e) {top : List (K × Nat)} (htop : ∀ t ∈ top, t.2 < E)
    {xb : Nat → K} {o : Nat} (ho : o < D) : (moeCell exp D I xb (bankReads E I D mats) top o).isSome = true := by
  rw [moeCell_isSome]
  intro t ht
  have he := htop t ht
  obtain ⟨hg, hu, hd⟩ := bankReads_eq hst he
  obtain ⟨hgl, hul, hdl, -, -, -⟩ := hst t.2 he
  have hsome : ∀ {l : List K} {n j : Nat}, l.length = n → j < n → (l[j]?).isSome = true := by
    intro l n j hl hj
    rw [List.getElem?_eq_getElem (hl ▸ hj)]
    rfl
  rw [expertOut_isSome]
  intro i hi
  refine ⟨fun d hd' => ?_, ?_⟩
  · have hj := index_lt hi hd'
    rw [hg _ hj, hu _ hj]
    exact ⟨hsome hgl hj, hsome hul hj⟩
  · have hj := index_lt ho hi
    rw [hd _ hj]
    exact hsome hdl hj

theorem moeRows_inj {B D I : Nat} {xs : List K} {experts experts' : Nat → ExpertReads K}
    {top : Nat → List (K × Nat)} :
    moeRows exp B D I xs experts top = moeRows exp B D I xs experts' top ↔
      ∀ b < B, ∀ o < D, moeCell exp D I (fun d => xs.getD (b * D + d) 0) experts (top b) o =
        moeCell exp D I (fun d => xs.getD (b * D + d) 0) experts' (top b) o := by
  unfold moeRows
  rw [Lists.flatMap_range_inj (m := D) (by simp) (by simp)]
  simp only [Lists.map_range_inj]

omit [LinearOrder K] in
/-- A staged expert that came as floats reads as its matrices. -/
theorem StagedExpert.reads {F : FloatBits K} {I D : Nat} {m : ExpertMats K} {triples : List (TensorView K)} {e : Nat}
    (h : StagedExpert F I D m triples e) (hpresent : missing triples e = false) (hfloat : floatExpert triples e = true) :
    (gateOf triples e).f32 = m.gate ∧ (upOf triples e).f32 = m.up ∧ (downOf triples e).f32 = m.down := by
  simp only [missing, Bool.or_eq_false_iff, Option.isNone_eq_false_iff] at hpresent
  simp only [floatExpert, Bool.and_eq_true, Bool.not_eq_true'] at hfloat
  obtain ⟨⟨hg, hu⟩, hd⟩ := hpresent
  obtain ⟨⟨hgf, huf⟩, hdf⟩ := hfloat
  exact ⟨h.gate.read_floats hg hgf, h.up.read_floats hu huf, h.down.read_floats hd hdf⟩

omit [LinearOrder K] in
/-- One that did not has a matrix that ends early. -/
theorem StagedExpert.short {F : FloatBits K} {I D : Nat} {m : ExpertMats K} {triples : List (TensorView K)} {e : Nat}
    (h : StagedExpert F I D m triples e) (hpresent : missing triples e = false) (hfloat : floatExpert triples e = false)
    (hpos : 0 < I * D) :
    (listedReads triples e).gate (I * D - 1) = none ∨ (listedReads triples e).up (I * D - 1) = none ∨
      (listedReads triples e).down (D * I - 1) = none := by
  simp only [missing, Bool.or_eq_false_iff, Option.isNone_eq_false_iff] at hpresent
  obtain ⟨⟨hg, hu⟩, hd⟩ := hpresent
  simp only [floatExpert, Bool.and_eq_false_iff, Bool.not_eq_false'] at hfloat
  rcases hfloat with (hgf | huf) | hdf
  · exact .inl (h.gate.read_packed hg hgf hpos)
  · exact .inr (.inl (h.up.read_packed hu huf hpos))
  · exact .inr (.inr (h.down.read_packed hd hdf (Nat.mul_comm I D ▸ hpos)))

/-- The listed kernel's output is the bank kernel's exactly when every routed expert came as floats. -/
theorem listed_eq_bank_iff {F : FloatBits K} {B D E I : Nat} {topK : Int} {xs probs : List K}
    {mats : Nat → ExpertMats K} {triples : List (TensorView K)} {Y : List (Option K)} (hx : xs.length = B * D)
    (hprobs : probs.length = B * E) (hst : ∀ e < E, StagedExpert F I D (mats e) triples e)
    (hok : moeExpertsSwigluListedF32 exp ps (.ofF32 [(B : Int), D] xs) (.ofF32 [(B : Int), E] probs) triples E topK
      [B, D] = .ok Y) :
    moeExpertsSwigluF32 exp ps (.ofF32 [(B : Int), D] xs) (bank E I D fun e => (mats e).gate)
        (bank E I D fun e => (mats e).up) (bank E D I fun e => (mats e).down) (.ofF32 [(B : Int), E] probs) [B, D] E topK =
        .ok Y ↔
      D = 0 ∨ ∀ b < B, ∀ t ∈ ranked ps probs E (topCount topK E) b, floatExpert triples t.2 = true := by
  obtain ⟨-, hI, hpresent, rfl⟩ := listed_ok exp ps hst hok
  rw [bank_run exp ps hx hprobs, Except.ok.injEq, moeRows_inj]
  apply Iff.intro
  · intro h
    by_contra hnot
    obtain ⟨hD, hnot⟩ := not_or.mp hnot
    push Not at hnot
    obtain ⟨b, hb, t, ht, hquant⟩ := hnot
    have hcell := h b hb (D - 1) (by omega)
    have hsome : (moeCell exp D I (fun d => xs.getD (b * D + d) 0) (bankReads E I D mats)
        (ranked ps probs E (topCount topK E) b) (D - 1)).isSome = true :=
      bank_cell_isSome exp hst (fun t ht => ranked_lt ps ht) (by omega)
    have hshort := (hst t.2 (ranked_lt ps ht)).short (hpresent b hb t ht) (by simpa using hquant)
      (Nat.mul_pos hI (Nat.pos_of_ne_zero hD))
    rw [hcell, moeCell_none exp (Nat.pos_of_ne_zero hD) hI ht hshort] at hsome
    cases hsome
  · intro h b hb o ho
    apply moeCell_congr exp ho
    intro t ht
    have he := ranked_lt ps ht
    obtain ⟨hg, hu, hd⟩ := bankReads_eq hst he
    have hfloat : floatExpert triples t.2 = true := by
      rcases h with rfl | h
      · omega
      · exact h b hb t ht
    obtain ⟨hgr, hur, hdr⟩ := (hst t.2 he).reads (hpresent b hb t ht) hfloat
    refine ⟨fun j hj => ?_, fun j hj => ?_, fun j hj => ?_⟩
    · rw [hg j hj, listedReads, hgr]
    · rw [hu j hj, listedReads, hur]
    · rw [hd j hj, listedReads, hdr]

end Kernels

/-! ## One expert -/

def zeroBits : FloatBits Rat := ⟨fun _ => 0, fun _ => 0⟩

/-- A `Q8_0` block of zeros. -/
def zeroBlock : List UInt8 := List.replicate 34 0

def packedView (rows cols : Int) : TensorView Rat := ⟨.unknown, [rows, cols], some (floatWords zeroBits zeroBlock), .q8_0⟩

def zeroMats : ExpertMats Rat := ⟨List.replicate 32 0, List.replicate 32 0, List.replicate 32 0⟩

def packedExpert : List (TensorView Rat) := [packedView 1 32, packedView 1 32, packedView 32 1]

/-- One expert of zeros, staged packed: the bank's output is 0, the listed kernel's indeterminate. -/
theorem packed_expert_differs :
    ∃ Y Y' : List (Option Rat), (∀ e < 1, StagedExpert zeroBits 1 32 zeroMats packedExpert e) ∧
      moeExpertsSwigluListedF32 (fun _ => 1) (fullSort Rat) (.ofF32 [1, 32] (List.replicate 32 0)) (.ofF32 [1, 1] [1])
        packedExpert 1 1 [1, 32] = .ok Y ∧
      moeExpertsSwigluF32 (fun _ => 1) (fullSort Rat) (.ofF32 [1, 32] (List.replicate 32 0))
        (bank 1 1 32 fun _ => zeroMats.gate) (bank 1 1 32 fun _ => zeroMats.up) (bank 1 32 1 fun _ => zeroMats.down)
        (.ofF32 [1, 1] [1]) [1, 32] 1 1 = .ok Y' ∧
      Y ≠ Y' := by
  refine ⟨List.replicate 32 none, List.replicate 32 (some 0), ?_, by decide +kernel, by decide +kernel, by decide⟩
  intro e he
  obtain rfl : e = 0 := by omega
  have hstaged : ∀ rows cols : Nat, rows * cols = 32 →
      Staged zeroBits rows cols (List.replicate 32 0) (packedView rows cols) := by
    intro rows cols h
    refine .packed .q8_0 zeroBlock rfl ?_ ?_
    · rw [h]; decide
    · rw [h]; decide +kernel
  exact ⟨rfl, rfl, rfl, hstaged 1 32 rfl, hstaged 1 32 rfl, hstaged 32 1 rfl⟩

def oneMats : ExpertMats Rat := ⟨[1], [3], [1]⟩

def floatTriple : List (TensorView Rat) := [.ofF32 [1, 1] [1], .ofF32 [1, 1] [3], .ofF32 [1, 1] [1]]

/-- An expert staged as floats. -/
theorem float_expert_agrees :
    moeExpertsSwigluF32 (fun _ => 1) (fullSort Rat) (.ofF32 [1, 1] [2]) (bank 1 1 1 fun _ => oneMats.gate)
      (bank 1 1 1 fun _ => oneMats.up) (bank 1 1 1 fun _ => oneMats.down) (.ofF32 [1, 1] [1]) [1, 1] 1 1 = .ok [some 6] := by
  have hst : ∀ e < 1, StagedExpert zeroBits 1 1 oneMats floatTriple e := by
    intro e he
    obtain rfl : e = 0 := by omega
    exact ⟨rfl, rfl, rfl, .floats, .floats, .floats⟩
  have hok : moeExpertsSwigluListedF32 (fun _ => 1) (fullSort Rat) (.ofF32 [1, 1] [2]) (.ofF32 [1, 1] [1]) floatTriple 1 1
      [1, 1] = .ok [some 6] := by decide +kernel
  exact (listed_eq_bank_iff (fun _ => 1) (fullSort Rat) (B := 1) (D := 1) (E := 1) (I := 1) rfl rfl hst hok).mpr
    (.inr (by decide +kernel))

end Uaii.Kernels
