/-
  Uaii.Kernels.Embedding — `embedding_f32` on floats and on a packed table
  (`libs/uaii-kernels/src/transformer.cpp`).

  A packed table is read a row at a time, at the row stride; a table of floats is copied.
  Numbers are exact, in any ring; the conversion of a token to an `int` is a parameter,
  none where the language does not define it. Each token's row is written before the next
  token is looked at.

  Proved: on a packed matrix of whole blocks every row lies in the payload, and the kernel
  returns what it returns on the dequantised table (`embedding_packed`).
-/

import Uaii.Kernels.QuantGemm
import Uaii.Lib.Rows
import Uaii.Quant.GgufRows

namespace Uaii.Kernels

open Uaii.Ir Uaii.Quant

/-! ## The kernel -/

/-- The memory a weight points to. -/
inductive Table (K : Type) where
  | floats (words : List K)
  | packed (bytes : List UInt8)
  deriving DecidableEq, Repr

/-- `TensorView` of an embedding's weight. -/
structure EmbeddingWeight (K : Type) where
  dtype : DType
  shape : List Int
  data : Option (Table K)
  quantFormat : QuantFormat
  quantRows : Int
  quantCols : Int
  deriving DecidableEq, Repr

section Model

variable {K : Type} [Ring K] (toInt : K → Option Int) (F : FloatBits K)

namespace EmbeddingWeight

def dim (w : EmbeddingWeight K) (i : Nat) : Int := w.shape.getD i 1

/-- `vocab` and `dim`. -/
def rows (w : EmbeddingWeight K) : Int := if 0 < w.quantRows then w.quantRows else w.dim 0
def cols (w : EmbeddingWeight K) : Int := if 0 < w.quantCols then w.quantCols else w.dim 1

def quantized (w : EmbeddingWeight K) : Bool := isGgufBlockQuant w.quantFormat

/-- `f32()`. -/
def words (w : EmbeddingWeight K) : Option (List K) :=
  w.data.map fun
    | .floats words => words
    | .packed bytes => (List.range (bytes.length / 4)).map fun i => F.f32 (u32At bytes (4 * i))

def asFloats (w : EmbeddingWeight K) : TensorView K := ⟨w.dtype, w.shape, w.words F, w.quantFormat⟩

/-- What is written for a token. -/
def row (w : EmbeddingWeight K) (id : Nat) : Result (List K) :=
  if w.quantized then
    match w.data with
    | some (.packed bytes) =>
      dequantGgufRow F w.quantFormat (bytes.drop (wrap64 (id * packedNbytes w.quantFormat w.cols.toNat))) w.cols
    | _ => .error (.undefined "floats read as blocks")
  else
    let words := (w.words F).getD []
    if words.length < (id + 1) * w.cols.toNat then .error (.undefined "read past the table")
    else .ok (Rows.row w.cols.toNat words id)

end EmbeddingWeight

/-- One token: its id is checked, and its row copied. -/
def embedToken (tokens : TensorView K) (w : EmbeddingWeight K) (y : List K) (row : Nat) : Result (List K) :=
  match tokens.f32[row]? with
  | none => .error (.undefined "read past the tokens")
  | some x =>
    match toInt x with
    | none => .error (.undefined "float out of the range of int")
    | some id =>
      -- `static_cast<int>(vocab)`
      if id < 0 ∨ w.rows.bmod (2 ^ 32) ≤ id then
        fail .invalidArgument ("embedding token id out of range: " ++ toString id ++ " vocab=" ++ toString w.rows)
      else do
        let dst ← w.row F id.toNat
        if y.length < (row + 1) * w.cols.toNat then .error (.undefined "write past the output")
        else .ok (Rows.blit y (row * w.cols.toNat) dst 0 w.cols.toNat)

/-- The output is `[B, S, D]`, `[B * S, D]`, or `[B, D]` of one position. -/
def embeddingOutShape (batch seq dim : Int) (out : TensorView K) : Result Unit :=
  if out.rank ≠ 3 ∧ out.rank ≠ 2 then fail .invalidArgument "embedding out rank must be 2 or 3"
  else if out.rank = 3 then require (out.dim 0 = batch && out.dim 1 = seq && out.dim 2 = dim) "embedding out shape [B,S,D]"
  else if seq = 1 then require (out.dim 0 = batch && out.dim 1 = dim) "embedding out shape [B,D]"
  else require (out.dim 0 = batch * seq && out.dim 1 = dim) "embedding out shape [B*S,D]"

/-- What a table of floats has to be. -/
def EmbeddingWeight.check (w : EmbeddingWeight K) : Result Unit :=
  if w.quantized then .ok ()
  else do
    require (w.dtype = .f32) "embedding weight requires f32"
    checkViewBytes (w.asFloats F) "weight"

/-- The words of the output. -/
def embeddingF32 (tokens : TensorView K) (w : EmbeddingWeight K) (out : TensorView K) : Result (List K) := do
  require (tokens.data.isSome && w.data.isSome && out.data.isSome) "embedding null"
  require (tokens.dtype = .f32 && out.dtype = .f32) "embedding requires f32 tokens/out"
  require (w.shape.length = 2 && tokens.rank = 2) "embedding rank (tokens/weight)"
  checkViewBytes tokens "tokens"
  embeddingOutShape (tokens.dim 0) (tokens.dim 1) w.cols out
  checkViewBytes out "embedding_out"
  w.check F
  (List.range ((tokens.dim 0).toNat * (tokens.dim 1).toNat)).foldlM (embedToken toInt F tokens w) out.f32

end Model

/-! ## What the checks say -/

section Views

variable {K : Type}

/-- The output's last dimension is the row's. -/
theorem embeddingOutShape_dim {batch seq dim : Int} {out : TensorView K} (h : embeddingOutShape batch seq dim out = .ok ()) :
    dim ∈ out.shape := by
  have hmem : ∀ i < out.rank, out.dim i ∈ out.shape := by
    intro i hi
    have hi' : i < out.shape.length := hi
    rw [TensorView.dim, List.getD_eq_getElem _ _ hi']
    exact List.getElem_mem hi'
  unfold embeddingOutShape at h
  split at h
  · exact absurd h (fail_ne_ok _ _ _)
  · rename_i hrank
    split at h
    · rename_i h3
      have hd := require_ok.mp h
      simp only [Bool.and_eq_true, decide_eq_true_eq] at hd
      rw [← hd.2]
      exact hmem 2 (by omega)
    · have h2 : out.rank = 2 := by omega
      split at h
      all_goals
        have hd := require_ok.mp h
        simp only [Bool.and_eq_true, decide_eq_true_eq] at hd
        rw [← hd.2]
        exact hmem 1 (by omega)

end Views

theorem bind_congr_ok {α β : Type} {x : Result α} {f g : α → Result β} (h : ∀ a, x = .ok a → f a = g a) : x >>= f = x >>= g := by
  cases x with
  | ok a => exact h a rfl
  | error e => rfl

theorem foldlM_congr {α β : Type} {f g : β → α → Result β} {l : List α} (h : ∀ a ∈ l, ∀ y, f y a = g y a) {y : β} :
    l.foldlM f y = l.foldlM g y := by
  induction l generalizing y with
  | nil => rfl
  | cons a l ih =>
    rw [List.foldlM_cons, List.foldlM_cons, h a List.mem_cons_self]
    exact bind_congr_ok fun y' _ => ih fun b hb => h b (List.mem_cons_of_mem a hb)

/-! ## A packed table and its floats -/

section Packed

variable {K : Type} [Ring K] (toInt : K → Option Int) (F : FloatBits K)

/-- A packed matrix. -/
structure IsPacked (w : EmbeddingWeight K) (f : QuantFormat) (rows cols : Nat) (packed : List UInt8) : Prop where
  rank : w.shape.length = 2
  data : w.data = some (.packed packed)
  format : w.quantFormat = f
  rows : w.rows = rows
  cols : w.cols = cols

/-- Its table of floats. -/
def floatTable (rows cols : Nat) (table : List K) : EmbeddingWeight K := ⟨.f32, [rows, cols], some (.floats table), .f32, 0, 0⟩

/-- Every token is the number of a row. -/
def InRange (tokens : TensorView K) (rows : Nat) : Prop :=
  ∀ i < (tokens.dim 0).toNat * (tokens.dim 1).toNat, ∀ x, tokens.f32[i]? = some x →
    ∃ id : Nat, toInt x = some (id : Int) ∧ id < rows

variable {f : QuantFormat} {rows cols : Nat} {packed : List UInt8} {w : EmbeddingWeight K} {table : List K} {row : Nat → List K}

/-- The row of a table is the row that is dequantised. -/
theorem table_row (hlen : ∀ r < rows, (row r).length = cols) {id : Nat} (hid : id < rows) :
    (floatTable rows cols ((List.range rows).flatMap row)).row F id = .ok (row id) := by
  have hwords : (floatTable rows cols ((List.range rows).flatMap row)).words F = some ((List.range rows).flatMap row) := rfl
  have hcols : (floatTable rows cols ((List.range rows).flatMap row)).cols.toNat = cols := Int.toNat_natCast cols
  have hle : (id + 1) * cols ≤ rows * cols := Nat.mul_le_mul_right cols hid
  unfold EmbeddingWeight.row
  rw [if_neg (by exact Bool.false_ne_true)]
  simp only [hwords, hcols, Option.getD_some, Lists.length_flatMap_range hlen]
  rw [if_neg (by omega), Rows.row_flatMap hlen hid]

theorem packed_row_eq (hw : IsPacked w f rows cols packed) (hf : isGgufBlockQuant f = true) {id : Nat}
    (hid : packedRow F f packed cols id = .ok (row id)) (hin : id * packedNbytes f cols < 2 ^ 64) : w.row F id = .ok (row id) := by
  have hq : w.quantized = true := by rw [EmbeddingWeight.quantized, hw.format, hf]
  unfold EmbeddingWeight.row
  rw [if_pos hq, hw.data]
  dsimp only
  rw [hw.format, hw.cols, Int.toNat_natCast, wrap64_of_lt hin]
  exact hid

/-- A token's row is the same from both. -/
theorem embedToken_eq (hw : IsPacked w f rows cols packed) (hf : isGgufBlockQuant f = true) {tokens : TensorView K}
    (hrange : InRange toInt tokens rows) (hlen : ∀ r < rows, (row r).length = cols)
    (hrow : ∀ r < rows, packedRow F f packed cols r = .ok (row r) ∧ r * packedNbytes f cols < 2 ^ 64) (y : List K) {i : Nat}
    (hi : i < (tokens.dim 0).toNat * (tokens.dim 1).toNat) :
    embedToken toInt F tokens w y i = embedToken toInt F tokens (floatTable rows cols ((List.range rows).flatMap row)) y i := by
  have hrows : w.rows = (floatTable rows cols ((List.range rows).flatMap row)).rows := hw.rows
  have hcols : w.cols = (floatTable rows cols ((List.range rows).flatMap row)).cols := hw.cols
  unfold embedToken
  cases hx : tokens.f32[i]? with
  | none => rfl
  | some x =>
    obtain ⟨id, hid, hlt⟩ := hrange i hi x hx
    obtain ⟨hpacked, hin⟩ := hrow id hlt
    simp only [hid, hrows, hcols, Int.toNat_natCast, packed_row_eq F hw hf hpacked hin, table_row F hlen hlt]

omit [Ring K] in
theorem floatTable_check (hrows : 0 < rows) (hcols : 0 < cols) (hn : rows * cols < 2 ^ 62) (hlen : table.length = rows * cols) :
    (floatTable rows cols table).check F = .ok () := by
  have hpos : 0 < rows * cols := Nat.mul_pos hrows hcols
  have hnumel : (TensorView.ofF32 [(rows : Int), cols] table).numel = rows * cols := by
    unfold TensorView.numel
    rw [if_neg (by simp [TensorView.ofF32])]
    show wrap64 (wrap64 (1 * rows) * cols) = rows * cols
    have hle : rows ≤ rows * cols := Nat.le_mul_of_pos_right rows hcols
    rw [Nat.one_mul, wrap64_of_lt (show rows < 2 ^ 64 by omega), wrap64_of_lt (by omega)]
  have hcheck : checkViewBytes (.ofF32 [(rows : Int), cols] table) "weight" = .ok () := by
    have hneed : wrap64 ((TensorView.ofF32 [(rows : Int), cols] table).numel * 4) = 4 * (rows * cols) := by
      rw [hnumel, wrap64_of_lt (by omega), Nat.mul_comm]
    exact checkViewBytes_ofF32 hneed (by omega) (by omega)
  exact hcheck

theorem embedding_eq (hw : IsPacked w f rows cols packed) (hf : isGgufBlockQuant f = true) (hn : rows * cols < 2 ^ 62)
    (hlen : ∀ r < rows, (row r).length = cols)
    (hrow : ∀ r < rows, packedRow F f packed cols r = .ok (row r) ∧ r * packedNbytes f cols < 2 ^ 64) {tokens : TensorView K}
    (hrange : InRange toInt tokens rows) (out : TensorView K) :
    embeddingF32 toInt F tokens w out =
      embeddingF32 toInt F tokens (floatTable rows cols ((List.range rows).flatMap row)) out := by
  have hcols : w.cols = (floatTable rows cols ((List.range rows).flatMap row)).cols := hw.cols
  have hdata : w.data.isSome = (floatTable rows cols ((List.range rows).flatMap row)).data.isSome := by rw [hw.data]; rfl
  have hrank : w.shape.length = (floatTable rows cols ((List.range rows).flatMap row)).shape.length := hw.rank
  unfold embeddingF32
  rw [hcols, hdata, hrank]
  refine bind_congr_ok fun _ _ => bind_congr_ok fun _ _ => bind_congr_ok fun _ hranks => bind_congr_ok fun _ htokens =>
    bind_congr_ok fun _ hshape => bind_congr_ok fun _ hout => ?_
  have hpos : 0 < cols := by
    have hmem := numel_pos (checkViewBytes_numel hout).1 _ (embeddingOutShape_dim hshape)
    rw [← hcols, hw.cols] at hmem
    omega
  have hrows : 0 < rows := by
    have hrank2 := require_ok.mp hranks
    simp only [Bool.and_eq_true, decide_eq_true_eq] at hrank2
    obtain ⟨hbatch, hseq⟩ := checkViewBytes_pos htokens hrank2.2
    have hfirst : 0 < (tokens.dim 0).toNat * (tokens.dim 1).toNat := Nat.mul_pos (by omega) (by omega)
    have hne : 0 < tokens.f32.length := List.length_pos_iff.mpr (checkViewBytes_numel htokens).2
    obtain ⟨id, -, hlt⟩ := hrange 0 hfirst _ (List.getElem?_eq_getElem hne)
    omega
  have hq : w.check F = .ok () := by
    rw [EmbeddingWeight.check, EmbeddingWeight.quantized, hw.format, hf, if_pos rfl]
  rw [hq, floatTable_check F hrows hpos hn (Lists.length_flatMap_range hlen)]
  exact foldlM_congr fun i hi y => embedToken_eq toInt F hw hf hrange hlen hrow y (List.mem_range.mp hi)

/-- A packed matrix of whole blocks is dequantised alike as one row and row by row, each
    row from its own bytes of the payload and each element from its own block's; and the
    embedding of every token matrix whose ids are in range is that of the table of
    floats. -/
theorem embedding_packed (hf : isGgufBlockQuant f = true) (hcols : cols % blockElems f = 0) (hn : rows * cols < 2 ^ 63)
    (hlen : packed.length = packedNbytes f (rows * cols)) :
    ∃ row : Nat → List K, dequantGgufRow F f packed (rows * cols : Nat) = .ok ((List.range rows).flatMap row) ∧
      (∀ r < rows, r * packedNbytes f cols + packedNbytes f cols ≤ packed.length ∧ packedRow F f packed cols r = .ok (row r) ∧
        dequantGgufRow F f ((packed.drop (r * packedNbytes f cols)).take (packedNbytes f cols)) cols = .ok (row r)) ∧
      (∀ k, rowKernel F f = some k → ∀ b, ∀ t < k.qk, k.elem (b.take k.size) t = k.elem b t) ∧
      (rows * cols < 2 ^ 62 → ∀ w, IsPacked w f rows cols packed → ∀ tokens, InRange toInt tokens rows → ∀ out,
        embeddingF32 toInt F tokens w out =
          embeddingF32 toInt F tokens (floatTable rows cols ((List.range rows).flatMap row)) out) := by
  obtain ⟨row, hwhole, hrow⟩ := dequantGgufRow_rows F hf hcols hn hlen.ge
  have hpayload : packed.length < 2 ^ 64 := by
    rw [hlen, packedNbytes_block hf]
    exact Nat.mod_lt _ (by decide)
  refine ⟨row, hwhole, fun r hr => ?_, fun k hk b t ht => elem_local F hk b ht, ?_⟩
  · obtain ⟨hin, hpacked, hown, -⟩ := hrow r hr
    exact ⟨hin, hpacked, hown⟩
  · intro hfits w hw tokens hrange out
    refine embedding_eq toInt F hw hf hfits (fun r hr => (hrow r hr).2.2.2) (fun r hr => ⟨(hrow r hr).2.1, ?_⟩) hrange out
    have hin := (hrow r hr).1
    omega

end Packed

/-! ## Two rows -/

/-- The bit patterns of 1.0 and 2.0. -/
def twoBits : FloatBits Int where
  f16 b := if b = 0x3C00 then 1 else if b = 0x4000 then 2 else 0
  f32 _ := 0

/-- A `Q8_0` block of equal values. -/
def flatBlock (scale : UInt8) (q : UInt8) : List UInt8 := [0, scale] ++ List.replicate 32 q

theorem two_rows_embed :
    ∃ row : Nat → List Int, dequantGgufRow twoBits .q8_0 (flatBlock 0x3C 1 ++ flatBlock 0x40 3) (2 * 32 : Nat) =
        .ok ((List.range 2).flatMap row) ∧
      (∀ r < 2, r * packedNbytes .q8_0 32 + packedNbytes .q8_0 32 ≤ (flatBlock 0x3C 1 ++ flatBlock 0x40 3).length ∧
        packedRow twoBits .q8_0 (flatBlock 0x3C 1 ++ flatBlock 0x40 3) 32 r = .ok (row r) ∧
        dequantGgufRow twoBits .q8_0 (((flatBlock 0x3C 1 ++ flatBlock 0x40 3).drop (r * packedNbytes .q8_0 32)).take
          (packedNbytes .q8_0 32)) (32 : Nat) = .ok (row r)) ∧
      (∀ k, rowKernel twoBits .q8_0 = some k → ∀ b, ∀ t < k.qk, k.elem (b.take k.size) t = k.elem b t) ∧
      (2 * 32 < 2 ^ 62 → ∀ w, IsPacked w .q8_0 2 32 (flatBlock 0x3C 1 ++ flatBlock 0x40 3) → ∀ tokens,
        InRange some tokens 2 → ∀ out, embeddingF32 some twoBits tokens w out =
          embeddingF32 some twoBits tokens (floatTable 2 32 ((List.range 2).flatMap row)) out) :=
  embedding_packed some twoBits rfl rfl (by omega) (by decide)

end Uaii.Kernels
