/-
  Uaii.Kernels.QuantGemm — `dispatch_cpu` of a MatMul: `matmul_f32` on floats, and
  `quant_gemm_f32` on a packed B (`libs/uaii-kernels/src/{dispatch,matmul,gemm_ref,quant_gemm}.cpp`).

  The packed kernel is chosen by B's format and `transpose_b` alone. It dequantises B a
  row at a time and leaves the column of a row that does not dequantise as it was. Sums
  are exact, in any ring, so tiles and lanes do not show.

  Proved: what the packed kernel writes is the product of the two operands exactly when
  rows are whole blocks and A is not to be transposed, or its transpose has the same
  product (`packed_matmul_iff`); then it is what `matmul_f32` writes for the dequantised
  B. A row of one element is left out, and a transposed A is multiplied as it lies
  (`packed_matmul_differs`).
-/

import Mathlib.Algebra.Ring.Int.Defs
import Uaii.Ir.Graph
import Uaii.Kernels.TensorView
import Uaii.Lib.Lists
import Uaii.Quant.GgufDequant

namespace Uaii.Kernels

open Uaii.Ir Uaii.Quant

/-! ## The kernels -/

section Model

variable {R K : Type}

def attrBool (attrs : List (Attribute R)) (key : String) (dflt : Bool) : Bool :=
  (attrs.findSome? fun a => if a.key = key then (match a.value with | .bool b => some b | _ => none) else none).getD dflt

def require (ok : Bool) (message : String) : Result Unit := if ok then .ok () else fail .invalidArgument message

/-- A view's `nbytes` are those of the words it points to. -/
def checkViewBytes (t : TensorView K) (name : String) : Result Unit :=
  match t.data with
  | none => fail .invalidArgument (name ++ " data null")
  | some words =>
    let elem := dtypeSizeBytes t.dtype
    let need := wrap64 (t.numel * elem)
    if elem = 0 then fail .invalidArgument (name ++ " unknown dtype")
    else if need = 0 then fail .invalidArgument (name ++ " empty numel")
    else if 4 * words.length < need then
      fail .invalidArgument (name ++ " nbytes " ++ Nat.repr (4 * words.length) ++ " < required " ++ Nat.repr need)
    else .ok ()

/-- `TensorView` of a packed weight: `data` points to bytes. -/
structure PackedView where
  dtype : DType
  shape : List Int
  data : Option (List UInt8)
  quantFormat : QuantFormat
  quantRows : Int
  quantCols : Int
  deriving DecidableEq, Repr

namespace PackedView

def dim (b : PackedView) (i : Nat) : Int := b.shape.getD i 1

/-- `N` and `Bk`. -/
def rows (b : PackedView) : Int := if 0 < b.quantRows then b.quantRows else b.dim 0
def cols (b : PackedView) : Int := if 0 < b.quantCols then b.quantCols else b.dim 1

end PackedView

variable [Ring K] (F : FloatBits K)

/-- The same view, its bytes read through `f32()`. -/
def PackedView.asFloats (b : PackedView) : TensorView K :=
  ⟨b.dtype, b.shape, b.data.map fun bytes => (List.range (bytes.length / 4)).map fun i => F.f32 (u32At bytes (4 * i)), b.quantFormat⟩

def dotF32 (a b : Nat → K) (n : Nat) : K := ((List.range n).map fun k => a k * b k).sum

/-- `C[i * n + j] = f i j`, where `f` gives a value. -/
def storeMatrix (words : List K) (m n : Nat) (f : Nat → Nat → Option K) : List K :=
  words.mapIdx fun p x => if p < m * n then (f (p / n) (p % n)).getD x else x

def loadA (a : TensorView K) (transpose : Bool) (i k : Nat) : K :=
  let lda := (a.dim 1).toNat
  if transpose then a.f32.getD (k * lda + i) 0 else a.f32.getD (i * lda + k) 0

def loadB (b : TensorView K) (transpose : Bool) (k j : Nat) : K :=
  let ldb := (b.dim 1).toNat
  if transpose then b.f32.getD (j * ldb + k) 0 else b.f32.getD (k * ldb + j) 0

/-- The words a row-major `m × n` view must have. -/
def requireWords (t : TensorView K) : Result Unit :=
  if t.f32.length < (t.dim 0).toNat * (t.dim 1).toNat then .error (.undefined "access past the end of a tensor") else .ok ()

def requireF32 (t : TensorView K) (name : String) : Result Unit := do
  require (t.dtype = .f32) (name ++ " must be f32")
  require (t.rank = 2 && t.data.isSome) (name ++ " must be rank-2 with data")
  checkViewBytes t name

/-- `matmul_f32` with `RefGemm`; the words of C. -/
def matmulF32 (a b c : TensorView K) (transposeA transposeB : Bool) : Result (List K) := do
  requireF32 a "A"
  requireF32 b "B"
  require (c.dtype = .f32 && c.rank = 2 && c.data.isSome) "C must be rank-2 f32"
  checkViewBytes c "C"
  let aRows := if transposeA then a.dim 1 else a.dim 0
  let aCols := if transposeA then a.dim 0 else a.dim 1
  let bRows := if transposeB then b.dim 1 else b.dim 0
  let bCols := if transposeB then b.dim 0 else b.dim 1
  require (aCols = bRows) ("matmul shape mismatch: inner dims " ++ toString aCols ++ " vs " ++ toString bRows)
  require (c.dim 0 = aRows && c.dim 1 = bCols) "matmul output shape mismatch"
  require (0 < aRows && 0 < bCols && 0 < aCols) "ref gemm args"
  requireWords a
  requireWords b
  requireWords c
  return storeMatrix c.f32 aRows.toNat bCols.toNat fun i j =>
    some (dotF32 (loadA a transposeA i) (loadB b transposeB · j) aCols.toNat)

def supportsQuantGemm (f : QuantFormat) : Bool := isGgufBlockQuant f

/-- Row `j` of a packed B, from `packed + j * stride`. -/
def PackedView.row (b : PackedView) (j : Nat) : Result (List K) :=
  dequantGgufRow F b.quantFormat ((b.data.getD []).drop (j * packedNbytes b.quantFormat b.cols.toNat)) b.cols

def crashed {α : Type} : Result α → Bool
  | .error (.error ..) => false
  | .error _ => true
  | .ok _ => false

def quantGemmF32 (a : TensorView K) (b : PackedView) (c : TensorView K) (transposeB : Bool) : Result (List K) := do
  require transposeB "quant_gemm expects transpose_b=true (B is [N,K] packed)"
  require (a.dtype = .f32 && a.rank = 2 && a.data.isSome) "quant_gemm A must be f32 [M,K]"
  require (supportsQuantGemm b.quantFormat && b.data.isSome) "quant_gemm B quant unsupported"
  require (c.dtype = .f32 && c.rank = 2 && c.data.isSome) "quant_gemm C must be f32"
  checkViewBytes a "quant_A"
  checkViewBytes c "quant_C"
  require (a.dim 1 = b.cols && c.dim 0 = a.dim 0 && c.dim 1 = b.rows) "quant_gemm shape mismatch"
  requireWords a
  requireWords c
  let n := b.rows.toNat
  if (List.range n).any fun j => crashed (b.row F j) then .error (.undefined "read past the packed rows")
  -- `if (!derr.ok()) return;` leaves column `j`
  else return storeMatrix c.f32 (a.dim 0).toNat n fun i j =>
    (b.row F j).toOption.map fun row => dotF32 (loadA a false i) (row.getD · 0) (a.dim 1).toNat

/-- The MatMul branch of `dispatch_cpu`, on a B that is packed. -/
def dispatchMatMul (attrs : List (Attribute R)) (a : TensorView K) (b : PackedView) (c : TensorView K) : Result (List K) :=
  if supportsQuantGemm b.quantFormat && attrBool attrs "transpose_b" false then quantGemmF32 F a b c true
  else matmulF32 a (b.asFloats F) c (attrBool attrs "transpose_a" false) (attrBool attrs "transpose_b" false)

/-- `dequant_gguf_row` of every row, one after the other. -/
def PackedView.dequantised (b : PackedView) : List K :=
  (List.range b.rows.toNat).flatMap fun j => (b.row F j).toOption.getD []

end Model

/-! ## What a kernel that succeeds has checked -/

section Checks

variable {K : Type}

@[simp] theorem require_ok {ok : Bool} {message : String} : require ok message = .ok () ↔ ok = true := by
  cases ok <;> simp [require]

theorem unit_bind {β : Type} {x : Result Unit} {f : Unit → Result β} {b : β} : (x >>= f) = .ok b ↔ x = .ok () ∧ f () = .ok b := by
  cases x <;> simp

/-- No dimension of a view that has elements is 0. -/
theorem numel_pos {t : TensorView K} (h : t.numel ≠ 0) : ∀ d ∈ t.shape, 0 < d := by
  have hzero : ∀ (l : List Int) (n : Nat), (∃ d ∈ l, d = 0) ∨ n = 0 → l.foldl (fun n d => wrap64 (n * d.toNat)) n = 0 := by
    intro l
    induction l with
    | nil =>
      rintro n (⟨d, hd, -⟩ | hn)
      · cases hd
      · exact hn
    | cons e l ih =>
      rintro n (⟨d, hd, rfl⟩ | rfl)
      · rcases List.mem_cons.mp hd with rfl | hd
        · exact ih _ (.inr rfl)
        · exact ih _ (.inl ⟨0, hd, rfl⟩)
      · refine ih _ (.inr ?_)
        show wrap64 (0 * e.toNat) = 0
        rw [Nat.zero_mul]
        rfl
  intro d hd
  unfold TensorView.numel at h
  split at h
  · exact absurd rfl h
  · rename_i hshape
    rw [not_or] at hshape
    have hneg : ¬ d < 0 := by
      intro hlt
      exact hshape.2 (List.any_eq_true.mpr ⟨d, hd, by simpa using hlt⟩)
    have hne : d ≠ 0 := fun h0 => h (hzero t.shape 1 (.inl ⟨d, hd, h0⟩))
    omega

/-- A view that passes has elements. -/
theorem checkViewBytes_numel {t : TensorView K} {name : String} (h : checkViewBytes t name = .ok ()) :
    t.numel ≠ 0 ∧ t.f32 ≠ [] := by
  unfold checkViewBytes at h
  cases hdata : t.data with
  | none =>
    rw [hdata] at h
    exact absurd h (fail_ne_ok _ _ _)
  | some words =>
    rw [hdata] at h
    dsimp only at h
    split at h
    · exact absurd h (fail_ne_ok _ _ _)
    · split at h
      · exact absurd h (fail_ne_ok _ _ _)
      · rename_i hneed
        split at h
        · exact absurd h (fail_ne_ok _ _ _)
        · rename_i hlen
          apply And.intro
          · intro hzero
            apply hneed
            rw [hzero, Nat.zero_mul]
            rfl
          · rw [TensorView.f32, hdata, Option.getD_some]
            rintro rfl
            simp only [List.length_nil, Nat.mul_zero, Nat.not_lt] at hlen
            omega

/-- A view that has passed `check_view_bytes` is not empty. -/
theorem checkViewBytes_pos {t : TensorView K} {name : String} (h : checkViewBytes t name = .ok ()) (hrank : t.rank = 2) :
    0 < t.dim 0 ∧ 0 < t.dim 1 := by
  match hshape : t.shape with
  | [] => simp [TensorView.rank, hshape] at hrank
  | [x] => simp [TensorView.rank, hshape] at hrank
  | x :: y :: z :: rest => simp [TensorView.rank, hshape] at hrank
  | [x, y] =>
    have hnumel : t.numel ≠ 0 := by
      intro hzero
      unfold checkViewBytes at h
      cases hdata : t.data with
      | none => simp [hdata] at h
      | some words =>
        simp only [hdata, hzero, Nat.zero_mul, wrap64, Nat.zero_mod, if_true] at h
        split at h <;> exact absurd h (fail_ne_ok _ _ _)
    simp only [TensorView.dim, hshape, List.getD_cons_zero, List.getD_cons_succ]
    by_contra hle
    apply hnumel
    by_cases hneg : x < 0 ∨ y < 0
    · simp [TensorView.numel, hshape, hneg]
    · have hzero : x.toNat = 0 ∨ y.toNat = 0 := by omega
      rcases hzero with hzero | hzero <;> simp [TensorView.numel, hshape, hzero, wrap64]

theorem checkViewBytes_ofF32 {shape : List Int} {xs : List K} {name : String} {need : Nat}
    (hneed : wrap64 ((TensorView.ofF32 shape xs).numel * 4) = need) (hpos : 0 < need) (hle : need ≤ 4 * xs.length) :
    checkViewBytes (.ofF32 shape xs) name = .ok () := by
  have helem : dtypeSizeBytes (TensorView.ofF32 shape xs).dtype = 4 := rfl
  have hdata : (TensorView.ofF32 shape xs).data = some xs := rfl
  simp only [checkViewBytes, hdata, helem, hneed]
  rw [if_neg (by decide), if_neg (by omega), if_neg (by omega)]

theorem storeMatrix_get {words : List K} {m n : Nat} (hlen : m * n ≤ words.length) (f : Nat → Nat → Option K) {i j : Nat}
    (hi : i < m) (hj : j < n) : ∃ x, words[i * n + j]? = some x ∧ (storeMatrix words m n f)[i * n + j]? = some ((f i j).getD x) := by
  have hlt : i * n + j < m * n := by
    have hle : (i + 1) * n ≤ m * n := Nat.mul_le_mul_right _ hi
    rw [Nat.add_mul] at hle
    omega
  have hdiv : (i * n + j) / n = i := by
    rw [Nat.mul_comm, Nat.mul_add_div (by omega), Nat.div_eq_of_lt hj, Nat.add_zero]
  have hmod : (i * n + j) % n = j := by
    rw [Nat.mul_comm, Nat.mul_add_mod, Nat.mod_eq_of_lt hj]
  obtain ⟨x, hget⟩ : ∃ x, words[i * n + j]? = some x := ⟨_, List.getElem?_eq_getElem (hlt.trans_le hlen)⟩
  refine ⟨x, hget, ?_⟩
  rw [storeMatrix, List.getElem?_mapIdx, hget, Option.map_some, if_pos hlt, hdiv, hmod]

/-- Matrices that agree everywhere are stored the same. -/
theorem storeMatrix_congr {words : List K} {m n : Nat} {f g : Nat → Nat → Option K} (h : ∀ i < m, ∀ j < n, f i j = g i j) :
    storeMatrix words m n f = storeMatrix words m n g := by
  refine List.ext_getElem (by simp [storeMatrix]) fun p hp hp' => ?_
  simp only [storeMatrix, List.getElem_mapIdx]
  by_cases hlt : p < m * n
  · have hn : 0 < n := Nat.pos_of_ne_zero fun hn => by simp [hn] at hlt
    rw [if_pos hlt, if_pos hlt, h _ (Nat.div_lt_of_lt_mul (Nat.mul_comm m n ▸ hlt)) _ (Nat.mod_lt _ hn)]
  · rw [if_neg hlt, if_neg hlt]

end Checks

section Product

variable {R K : Type} [Ring K] {F : FloatBits K} {a : TensorView K} {b : PackedView} {c : TensorView K} {out : List K}

/-- What the packed kernel has checked, and what it has written. -/
structure QuantRun (F : FloatBits K) (a : TensorView K) (b : PackedView) (c : TensorView K) (out : List K) : Prop where
  a_view : a.dtype = .f32 ∧ a.rank = 2 ∧ a.data.isSome = true
  c_view : c.dtype = .f32 ∧ c.rank = 2 ∧ c.data.isSome = true
  a_bytes : ∀ name, checkViewBytes a name = .ok ()
  c_bytes : ∀ name, checkViewBytes c name = .ok ()
  inner : a.dim 1 = b.cols
  outer : c.dim 0 = a.dim 0 ∧ c.dim 1 = b.rows
  a_words : (a.dim 0).toNat * (a.dim 1).toNat ≤ a.f32.length
  c_words : (c.dim 0).toNat * (c.dim 1).toNat ≤ c.f32.length
  rows : ∀ j < b.rows.toNat, crashed (b.row F j) = false
  written : out = storeMatrix c.f32 (a.dim 0).toNat b.rows.toNat fun i j =>
    (b.row F j).toOption.map fun row => dotF32 (loadA a false i) (row.getD · 0) (a.dim 1).toNat

omit [Ring K] in
theorem checkViewBytes_name {t : TensorView K} {name : String} (h : checkViewBytes t name = .ok ()) (name' : String) :
    checkViewBytes t name' = .ok () := by
  unfold checkViewBytes at h ⊢
  cases hdata : t.data with
  | none => simp [hdata] at h
  | some words =>
    simp only [hdata] at h ⊢
    split at h
    · exact absurd h (fail_ne_ok _ _ _)
    · next helem =>
      split at h
      · exact absurd h (fail_ne_ok _ _ _)
      · next hneed =>
        split at h
        · exact absurd h (fail_ne_ok _ _ _)
        · next hlen => rw [if_neg helem, if_neg hneed, if_neg hlen]

omit [Ring K] in
theorem requireWords_ok {t : TensorView K} :
    requireWords t = .ok () ↔ (t.dim 0).toNat * (t.dim 1).toNat ≤ t.f32.length := by
  unfold requireWords
  split
  · next h => simp [Nat.not_le.mpr h]
  · next h => simp [Nat.not_lt.mp h]

theorem quantGemmF32_ok (h : quantGemmF32 F a b c true = .ok out) : QuantRun F a b c out := by
  simp only [quantGemmF32, unit_bind, require_ok, requireWords_ok, Bool.and_eq_true, decide_eq_true_eq] at h
  obtain ⟨-, ha, -, hc, habytes, hcbytes, hdims, hawords, hcwords, hrun⟩ := h
  split at hrun
  · cases hrun
  · next hrows =>
    refine ⟨⟨ha.1.1, ha.1.2, ha.2⟩, ⟨hc.1.1, hc.1.2, hc.2⟩, checkViewBytes_name habytes, checkViewBytes_name hcbytes,
      hdims.1.1, ⟨hdims.1.2, hdims.2⟩, hawords, hcwords, fun j hj => ?_, ?_⟩
    · rw [Bool.not_eq_true, List.any_eq_false] at hrows
      simpa using hrows j (List.mem_range.mpr hj)
    · exact (Except.ok.inj hrun).symm

/-- On a packed view only the packed kernel succeeds. -/
theorem dispatchMatMul_ok {attrs : List (Attribute R)} (hpacked : isGgufBlockQuant b.quantFormat = true) (hdtype : b.dtype ≠ .f32)
    (h : dispatchMatMul F attrs a b c = .ok out) : attrBool attrs "transpose_b" false = true ∧ QuantRun F a b c out := by
  unfold dispatchMatMul at h
  cases htb : attrBool attrs "transpose_b" false with
  | true =>
    rw [htb, supportsQuantGemm, hpacked] at h
    exact ⟨rfl, quantGemmF32_ok h⟩
  | false =>
    rw [htb, Bool.and_false] at h
    simp only [Bool.false_eq_true, if_false, matmulF32, requireF32, unit_bind, require_ok, PackedView.asFloats,
      decide_eq_true_eq] at h
    exact absurd (of_decide_eq_true h.2.1.1) hdtype

/-- Rows of whole blocks dequantise, and no others. -/
theorem row_ok_iff (hpacked : isGgufBlockQuant b.quantFormat = true) (hcols : 0 < b.cols) {j : Nat}
    (hrow : crashed (b.row F j) = false) : (∃ row, b.row F j = .ok row) ↔ b.cols.toNat % blockElems b.quantFormat = 0 := by
  obtain ⟨k, hk, hqk, -⟩ := rowKernel_spec F hpacked
  have hmod : b.cols.tmod k.qk = 0 ↔ b.cols.toNat % blockElems b.quantFormat = 0 := by
    obtain ⟨n, hn⟩ := Int.eq_ofNat_of_zero_le (Int.le_of_lt hcols)
    rw [Int.tmod_eq_emod_of_nonneg (by omega), hqk, hn, Int.toNat_natCast]
    exact_mod_cast Iff.rfl
  unfold PackedView.row at hrow ⊢
  simp only [dequantGgufRow, hk, dequantRow] at hrow ⊢
  by_cases hwhole : b.cols.tmod k.qk = 0
  · rw [if_neg (not_not.mpr hwhole)] at hrow ⊢
    split at hrow
    · cases hrow
    · next hbytes =>
      rw [if_neg hbytes]
      exact ⟨fun _ => hmod.mp hwhole, fun _ => ⟨_, rfl⟩⟩
  · rw [if_pos hwhole]
    refine ⟨fun hok => ?_, fun h => absurd (hmod.mpr h) hwhole⟩
    obtain ⟨row, hr⟩ := hok
    exact absurd hr (fail_ne_ok _ _ _)

/-! ## The product -/

/-- C is the product of `op(A)` and the dequantised rows of B, element by element. -/
structure IsProduct (F : FloatBits K) (transposeA : Bool) (a : TensorView K) (b : PackedView) (c : TensorView K)
    (out : List K) : Prop where
  inner : (if transposeA then a.dim 0 else a.dim 1) = b.cols
  outer : (if transposeA then a.dim 1 else a.dim 0) = c.dim 0
  elem : ∀ i < (c.dim 0).toNat, ∀ j < (c.dim 1).toNat, ∃ row, b.row F j = .ok row ∧
    out[i * (c.dim 1).toNat + j]? = some (dotF32 (loadA a transposeA i) (row.getD · 0) b.cols.toNat)

/-- C is what `matmul_f32` makes of the dequantised B. -/
def AgreesWithF32 (F : FloatBits K) (transposeA : Bool) (a : TensorView K) (b : PackedView) (c : TensorView K)
    (out : List K) : Prop :=
  (∀ j < b.rows.toNat, ∃ row, b.row F j = .ok row) ∧
    matmulF32 a (.ofF32 [b.rows, b.cols] (b.dequantised F)) c transposeA true = .ok out

/-- Rows are whole blocks; A is not to be transposed, or it is square and its transpose
    has the same product with every row. -/
def MultipliesExactly (F : FloatBits K) (transposeA : Bool) (a : TensorView K) (b : PackedView) : Prop :=
  b.cols.toNat % blockElems b.quantFormat = 0 ∧
    (transposeA = true → a.dim 0 = a.dim 1 ∧ ∀ i < (a.dim 0).toNat, ∀ j < b.rows.toNat, ∀ row, b.row F j = .ok row →
      dotF32 (loadA a true i) (row.getD · 0) b.cols.toNat = dotF32 (loadA a false i) (row.getD · 0) b.cols.toNat)

/-- The dimensions are positive. -/
theorem QuantRun.pos (h : QuantRun F a b c out) : 0 < a.dim 0 ∧ 0 < a.dim 1 ∧ 0 < b.rows ∧ 0 < b.cols := by
  obtain ⟨hm, hk⟩ := checkViewBytes_pos (h.a_bytes "A") h.a_view.2.1
  obtain ⟨-, hn⟩ := checkViewBytes_pos (h.c_bytes "C") h.c_view.2.1
  have hinner := h.inner
  have houter := h.outer.2
  omega

/-- What the packed kernel writes where the row dequantises. -/
theorem QuantRun.elem (h : QuantRun F a b c out) {i j : Nat} (hi : i < (c.dim 0).toNat) (hj : j < (c.dim 1).toNat) {row : List K}
    (hrow : b.row F j = .ok row) :
    out[i * (c.dim 1).toNat + j]? = some (dotF32 (loadA a false i) (row.getD · 0) b.cols.toNat) := by
  obtain ⟨hm, hn⟩ := h.outer
  have hlen : (a.dim 0).toNat * b.rows.toNat ≤ c.f32.length := by
    rw [← hm, ← hn]
    exact h.c_words
  rw [hm] at hi
  rw [hn] at hj ⊢
  obtain ⟨x, -, hget⟩ := storeMatrix_get hlen
    (fun i j => (b.row F j).toOption.map fun row => dotF32 (loadA a false i) (row.getD · 0) (a.dim 1).toNat) hi hj
  rw [h.written, hget, hrow, h.inner]
  rfl

theorem isProduct_iff (hpacked : isGgufBlockQuant b.quantFormat = true) (h : QuantRun F a b c out) (transposeA : Bool) :
    IsProduct F transposeA a b c out ↔ MultipliesExactly F transposeA a b := by
  obtain ⟨hm, hk, hn, hcols⟩ := h.pos
  obtain ⟨hcm, hcn⟩ := h.outer
  constructor
  · intro hprod
    obtain ⟨row, hrow, -⟩ := hprod.elem 0 (by omega) 0 (by omega)
    have hwhole := (row_ok_iff hpacked hcols (h.rows 0 (by omega))).mp ⟨row, hrow⟩
    refine ⟨hwhole, fun htrans => ?_⟩
    have hinner := hprod.inner
    rw [htrans, if_pos rfl] at hinner
    refine ⟨hinner.trans h.inner.symm, fun i hi j hj row hrow => ?_⟩
    obtain ⟨row', hrow', hget⟩ := hprod.elem i (by omega) j (by omega)
    obtain rfl : row = row' := Except.ok.inj (hrow.symm.trans hrow')
    rw [htrans, h.elem (by omega) (by omega) hrow] at hget
    exact (Option.some.inj hget).symm
  · rintro ⟨hwhole, htrans⟩
    have hrows : ∀ j < (c.dim 1).toNat, ∃ row, b.row F j = .ok row := fun j hj =>
      (row_ok_iff hpacked hcols (h.rows j (by omega))).mpr hwhole
    cases transposeA with
    | false =>
      refine ⟨h.inner, hcm.symm, fun i hi j hj => ?_⟩
      obtain ⟨row, hrow⟩ := hrows j hj
      exact ⟨row, hrow, h.elem hi hj hrow⟩
    | true =>
      obtain ⟨hsquare, hsame⟩ := htrans rfl
      refine ⟨hsquare.trans h.inner, hsquare.symm.trans hcm.symm, fun i hi j hj => ?_⟩
      obtain ⟨row, hrow⟩ := hrows j hj
      refine ⟨row, hrow, ?_⟩
      rw [hsame i (by omega) j (by omega) row hrow]
      exact h.elem hi hj hrow

/-! ## Against `matmul_f32` -/

theorem dotF32_congr {u v v' : Nat → K} {n : Nat} (h : ∀ k < n, v k = v' k) : dotF32 u v n = dotF32 u v' n := by
  unfold dotF32
  congr 1
  refine List.map_congr_left fun k hk => ?_
  rw [h k (List.mem_range.mp hk)]

theorem row_length (hpacked : isGgufBlockQuant b.quantFormat = true) (hcols : 0 < b.cols)
    (hwhole : b.cols.toNat % blockElems b.quantFormat = 0) {j : Nat} {row : List K} (hrow : b.row F j = .ok row) :
    row.length = b.cols.toNat := by
  obtain ⟨n, hn⟩ := Int.eq_ofNat_of_zero_le (Int.le_of_lt hcols)
  unfold PackedView.row at hrow
  rw [hn, Int.toNat_natCast] at hwhole
  rw [hn] at hrow
  rw [hn, Int.toNat_natCast]
  exact dequantGgufRow_length F hpacked hwhole hrow

/-- Every row of B dequantises to a row of its width. -/
def AllRows (F : FloatBits K) (b : PackedView) : Prop :=
  ∀ j < b.rows.toNat, ∃ row, b.row F j = .ok row ∧ row.length = b.cols.toNat

theorem AllRows.length (hrows : AllRows F b) : ∀ j < b.rows.toNat, ((b.row F j).toOption.getD []).length = b.cols.toNat := by
  intro j hj
  obtain ⟨row, hrow, hlen⟩ := hrows j hj
  rw [hrow]
  exact hlen

/-- Row `j` of the dequantised B. -/
theorem AllRows.loadB (hrows : AllRows F b) {j : Nat} (hj : j < b.rows.toNat) {row : List K} (hrow : b.row F j = .ok row)
    {k : Nat} (hk : k < b.cols.toNat) : loadB (.ofF32 [b.rows, b.cols] (b.dequantised F)) true k j = row.getD k 0 := by
  have hget := Lists.getElem?_flatMap_range b.rows.toNat hrows.length j hj k hk
  rw [hrow] at hget
  show (b.dequantised F).getD (j * b.cols.toNat + k) 0 = row.getD k 0
  rw [List.getD_eq_getElem?_getD, List.getD_eq_getElem?_getD]
  exact congrArg (·.getD 0) hget

/-- The dequantised B passes the checks of `matmul_f32`, when its bytes can be counted. -/
theorem AllRows.view (hrows : AllRows F b) (hn : 0 < b.rows) (hcols : 0 < b.cols)
    (hfit : b.rows.toNat * b.cols.toNat < 2 ^ 62) :
    requireF32 (.ofF32 [b.rows, b.cols] (b.dequantised F)) "B" = .ok () ∧
      requireWords (.ofF32 [b.rows, b.cols] (b.dequantised F)) = .ok () := by
  have hlen : (b.dequantised F).length = b.rows.toNat * b.cols.toNat := Lists.length_flatMap_range hrows.length
  have hnumel : (TensorView.ofF32 [b.rows, b.cols] (b.dequantised F)).numel = b.rows.toNat * b.cols.toNat := by
    have hle : b.rows.toNat ≤ b.rows.toNat * b.cols.toNat := Nat.le_mul_of_pos_right _ (by omega)
    have hneg : ¬ (b.rows < 0 ∨ b.cols < 0) := by omega
    simp only [TensorView.numel, TensorView.ofF32, List.any_cons, List.any_nil, Bool.or_false, Bool.or_eq_true,
      decide_eq_true_eq, hneg, reduceCtorEq, false_or, if_false, List.foldl_cons, List.foldl_nil, Nat.one_mul]
    rw [wrap64_of_lt (show b.rows.toNat < 2 ^ 64 by omega), wrap64_of_lt (by omega)]
  have hpos : 0 < b.rows.toNat * b.cols.toNat := Nat.mul_pos (by omega) (by omega)
  refine ⟨?_, ?_⟩
  · simp only [requireF32, unit_bind, require_ok]
    refine ⟨rfl, rfl, ?_⟩
    have hneed : wrap64 ((TensorView.ofF32 [b.rows, b.cols] (b.dequantised F)).numel * 4) = b.rows.toNat * b.cols.toNat * 4 := by
      rw [hnumel]
      exact wrap64_of_lt (by omega)
    exact checkViewBytes_ofF32 hneed (by omega) (by omega)
  · rw [requireWords_ok]
    exact Nat.le_of_eq hlen.symm

theorem allRows_iff (hpacked : isGgufBlockQuant b.quantFormat = true) (h : QuantRun F a b c out) :
    AllRows F b ↔ b.cols.toNat % blockElems b.quantFormat = 0 := by
  obtain ⟨-, -, hn, hcols⟩ := h.pos
  constructor
  · intro hrows
    obtain ⟨row, hrow, -⟩ := hrows 0 (by omega)
    exact (row_ok_iff hpacked hcols (h.rows 0 (by omega))).mp ⟨row, hrow⟩
  · intro hwhole j hj
    obtain ⟨row, hrow⟩ := (row_ok_iff hpacked hcols (h.rows j hj)).mpr hwhole
    exact ⟨row, hrow, row_length hpacked hcols hwhole hrow⟩

/-- What `matmul_f32` writes for the dequantised B. -/
theorem matmulF32_dequantised (h : QuantRun F a b c out) (hrows : AllRows F b) (hfit : b.rows.toNat * b.cols.toNat < 2 ^ 62)
    (transposeA : Bool) (out' : List K) :
    matmulF32 a (.ofF32 [b.rows, b.cols] (b.dequantised F)) c transposeA true = .ok out' ↔
      ((if transposeA then a.dim 0 else a.dim 1) = b.cols ∧ (if transposeA then a.dim 1 else a.dim 0) = c.dim 0) ∧
        out' = storeMatrix c.f32 (c.dim 0).toNat (c.dim 1).toNat fun i j =>
          (b.row F j).toOption.map fun row => dotF32 (loadA a transposeA i) (row.getD · 0) b.cols.toNat := by
  obtain ⟨hm, hk, hn, hcols⟩ := h.pos
  obtain ⟨hview, hwords⟩ := hrows.view hn hcols hfit
  have ha : requireF32 a "A" = .ok () := by
    simp only [requireF32, unit_bind, require_ok, h.a_view.1, h.a_view.2.1, h.a_view.2.2, h.a_bytes, decide_true,
      Bool.and_self, and_self]
  have hc : (decide (c.dtype = .f32) && decide (c.rank = 2) && c.data.isSome) = true := by
    simp only [h.c_view.1, h.c_view.2.1, h.c_view.2.2, decide_true, Bool.and_self]
  have hdims : TensorView.dim (.ofF32 [b.rows, b.cols] (b.dequantised F)) 0 = b.rows ∧
      TensorView.dim (.ofF32 [b.rows, b.cols] (b.dequantised F)) 1 = b.cols := ⟨rfl, rfl⟩
  obtain ⟨hcm, hcn⟩ := h.outer
  have hpos : ∀ x y : Int, (if transposeA then a.dim 0 else a.dim 1) = y → (if transposeA then a.dim 1 else a.dim 0) = x →
      0 < x ∧ 0 < y := by
    intro x y hy hx
    cases transposeA <;> simp only [Bool.false_eq_true, if_false, if_true] at hx hy <;> omega
  simp only [matmulF32, unit_bind, require_ok, requireWords_ok, ha, hview, hc, h.c_bytes, hdims, true_and, if_true,
    decide_eq_true_eq, Bool.and_eq_true]
  -- both sides store the same sums
  have hstore : (storeMatrix c.f32 (c.dim 0).toNat b.rows.toNat fun i j => some (dotF32 (loadA a transposeA i)
      (loadB (.ofF32 [b.rows, b.cols] (b.dequantised F)) true · j) b.cols.toNat)) =
      storeMatrix c.f32 (c.dim 0).toNat (c.dim 1).toNat fun i j =>
        (b.row F j).toOption.map fun row => dotF32 (loadA a transposeA i) (row.getD · 0) b.cols.toNat := by
    rw [hcn]
    refine storeMatrix_congr fun i _ j hj => ?_
    obtain ⟨row, hrow, -⟩ := hrows j hj
    rw [hrow]
    exact congrArg some (dotF32_congr fun k hk => hrows.loadB hj hrow hk)
  constructor
  · rintro ⟨hinner, ⟨houter, -⟩, -, -, -, -, hout⟩
    rw [← houter, hinner] at hout
    exact ⟨⟨hinner, houter.symm⟩, (Except.ok.inj hout).symm.trans hstore⟩
  · rintro ⟨⟨hinner, houter⟩, rfl⟩
    obtain ⟨hpos₁, hpos₂⟩ := hpos _ _ hinner houter
    refine ⟨hinner, ⟨houter.symm, hcn⟩, ?_, h.a_words, requireWords_ok.mp hwords, h.c_words, ?_⟩
    · rw [houter, hinner]
      exact ⟨⟨hpos₁, hn⟩, hpos₂⟩
    · rw [houter, hinner, ← hstore]
      rfl

theorem agreesWithF32_iff (hpacked : isGgufBlockQuant b.quantFormat = true) (h : QuantRun F a b c out)
    (hfit : b.rows.toNat * b.cols.toNat < 2 ^ 62) (transposeA : Bool) :
    AgreesWithF32 F transposeA a b c out ↔ IsProduct F transposeA a b c out := by
  obtain ⟨hm, hk, hn, hcols⟩ := h.pos
  obtain ⟨hcm, hcn⟩ := h.outer
  constructor
  · rintro ⟨hok, hrun⟩
    have hrows : AllRows F b := by
      obtain ⟨row, hrow⟩ := hok 0 (by omega)
      exact (allRows_iff hpacked h).mpr ((row_ok_iff hpacked hcols (h.rows 0 (by omega))).mp ⟨row, hrow⟩)
    obtain ⟨⟨hinner, houter⟩, hout⟩ := (matmulF32_dequantised h hrows hfit transposeA out).mp hrun
    refine ⟨hinner, houter, fun i hi j hj => ?_⟩
    obtain ⟨row, hrow⟩ := hok j (by omega)
    obtain ⟨x, -, hget⟩ := storeMatrix_get h.c_words
      (fun i j => (b.row F j).toOption.map fun row => dotF32 (loadA a transposeA i) (row.getD · 0) b.cols.toNat) hi hj
    refine ⟨row, hrow, ?_⟩
    rw [hout, hget, hrow]
    rfl
  · intro hprod
    have hrows : AllRows F b := (allRows_iff hpacked h).mpr ((isProduct_iff hpacked h transposeA).mp hprod).1
    refine ⟨fun j hj => ?_, (matmulF32_dequantised h hrows hfit transposeA out).mpr ⟨⟨hprod.inner, hprod.outer⟩, ?_⟩⟩
    · obtain ⟨row, hrow, -⟩ := hrows j hj
      exact ⟨row, hrow⟩
    · rw [h.written, hcm, hcn]
      refine storeMatrix_congr fun i hi j hj => ?_
      obtain ⟨row, hrow, hget⟩ := hprod.elem i (by omega) j (by omega)
      have hown := h.elem (i := i) (by omega) (by omega) hrow
      rw [hrow, h.inner]
      exact congrArg some (Option.some.inj (hown.symm.trans hget))

/-- A success of the packed kernel is the product exactly when the operands allow it. -/
theorem packed_matmul_iff {attrs : List (Attribute R)} (hpacked : isGgufBlockQuant b.quantFormat = true)
    (hdtype : b.dtype ≠ .f32) (hok : dispatchMatMul F attrs a b c = .ok out) :
    (IsProduct F (attrBool attrs "transpose_a" false) a b c out ↔
      MultipliesExactly F (attrBool attrs "transpose_a" false) a b) ∧
    (b.rows.toNat * b.cols.toNat < 2 ^ 62 →
      (AgreesWithF32 F (attrBool attrs "transpose_a" false) a b c out ↔
        MultipliesExactly F (attrBool attrs "transpose_a" false) a b)) := by
  obtain ⟨-, hrun⟩ := dispatchMatMul_ok hpacked hdtype hok
  have hiff := isProduct_iff hpacked hrun (attrBool attrs "transpose_a" false)
  exact ⟨hiff, fun hfit => (agreesWithF32_iff hpacked hrun hfit _).trans hiff⟩

end Product

/-! ## What it makes of two matrices -/

def integers : FloatBits Int := ⟨fun u => u.toNat, fun u => u.toNat⟩

/-- `q8_0` rows of `n` elements, with scale 1 and every element 2. -/
def twos (rows cols : Nat) : PackedView :=
  ⟨.unknown, [rows, cols], some ((List.range rows).flatMap fun _ => (List.range (cols / 32)).flatMap fun _ =>
    [1, 0] ++ List.replicate 32 2), .q8_0, rows, cols⟩

def transposed (x y : Bool) : List (Attribute Unit) := [⟨"transpose_a", .bool x⟩, ⟨"transpose_b", .bool y⟩]

theorem whole_rows_multiply :
    dispatchMatMul integers (transposed false true) (.ofF32 [1, 32] (List.replicate 32 3)) (twos 1 32) (.ofF32 [1, 1] [7]) =
      .ok [192] ∧
    (IsProduct integers false (.ofF32 [1, 32] (List.replicate 32 3)) (twos 1 32) (.ofF32 [1, 1] [7]) [192] ↔
      MultipliesExactly integers false (.ofF32 [1, 32] (List.replicate 32 3)) (twos 1 32)) := by
  have hrun : dispatchMatMul integers (transposed false true) (.ofF32 [1, 32] (List.replicate 32 3)) (twos 1 32)
      (.ofF32 [1, 1] [7]) = .ok [192] := by decide +kernel
  exact ⟨hrun, (packed_matmul_iff (by decide) (by decide) hrun).1⟩

/-- Ones in the first row, zeros below. -/
def firstRow : TensorView Int := .ofF32 [32, 32] (List.replicate 32 1 ++ List.replicate 992 0)

def column : TensorView Int := .ofF32 [32, 1] (List.replicate 32 7)

/-- Rows of one element are left out; a square A that is to be transposed is not. -/
theorem packed_matmul_differs :
    (dispatchMatMul integers (transposed false true) (.ofF32 [1, 1] [3]) (twos 1 1) (.ofF32 [1, 1] [7]) = .ok [7] ∧
      ¬ IsProduct integers false (.ofF32 [1, 1] [3]) (twos 1 1) (.ofF32 [1, 1] [7]) [7]) ∧
    ∃ out, dispatchMatMul integers (transposed true true) firstRow (twos 1 32) column = .ok out ∧
      ¬ IsProduct integers true firstRow (twos 1 32) column out := by
  refine ⟨⟨by decide +kernel, fun h => ?_⟩, ?_⟩
  · obtain ⟨row, hrow, -⟩ := h.elem 0 (by decide) 0 (by decide)
    exact absurd ((row_ok_iff (by decide) (by decide) (by decide +kernel)).mp ⟨row, hrow⟩) (by decide)
  · have hsome : (dispatchMatMul integers (transposed true true) firstRow (twos 1 32) column).toOption.isSome = true := by
      decide +kernel
    cases hrun : dispatchMatMul integers (transposed true true) firstRow (twos 1 32) column with
    | error e =>
      rw [hrun] at hsome
      cases hsome
    | ok out =>
      refine ⟨out, rfl, fun h => ?_⟩
      obtain ⟨-, hquant⟩ := dispatchMatMul_ok (by decide) (by decide) hrun
      have htwos : (twos 1 32).row integers 0 = .ok (List.replicate 32 2) := by decide +kernel
      have hsame := (((isProduct_iff (by decide) hquant true).mp h).2 rfl).2 1 (by decide) 0 (by decide) _ htwos
      exact absurd hsame (by decide +kernel)

end Uaii.Kernels
