/-
  Uaii.Quant.CodecRoundTrip — packing values in INT8, INT4, NF4 or MXFP4 and unpacking
  them with the same parameters and scales.

  A format's levels are the numbers a packed element can stand for, before the scale.
  Values are rationals; the scale is not 0.

  Proved: every value comes back as the level nearest to its clamped quotient times the
  scale it was packed with, and packing what came back gives the same bytes, exactly when
  the format is INT8 or INT4, or the scales were kept, or the scale is 1, or every value
  is packed as 0 (`round_trip_iff`).

  As built, `unpack_to_f32` of NF4 and MXFP4 takes 1 for the scale where none is passed,
  and `pack_f32` the parameter (`nf4_scale_lost`).
-/

import Mathlib.Algebra.Order.Group.MinMax
import Mathlib.Tactic.NormNum
import Uaii.Lib.Lists
import Uaii.Quant.Codec

namespace Uaii.Quant

/-! ## Nibbles -/

theorem byteAt_set (b : List UInt8) (i j : Nat) (v : UInt8) :
    byteAt (b.set i v) j = if i = j ∧ i < b.length then v else byteAt b j := by
  unfold byteAt
  rw [List.getD_eq_getElem?_getD, List.getD_eq_getElem?_getD, List.getElem?_set]
  by_cases hij : i = j
  · subst hij
    by_cases hi : i < b.length
    · simp [hi]
    · simp [hi]
  · simp [hij]

theorem byteAt_replicate (m j : Nat) : byteAt (List.replicate m 0) j = 0 := by
  unfold byteAt
  rw [List.getD_eq_getElem?_getD, List.getElem?_replicate]
  split <;> rfl

/-- The bytes after the first `k` nibbles. -/
theorem putNibbles_spec (nib : Nat → Nat) (m : Nat) : ∀ k, k ≤ 2 * m →
    ((List.range k).foldl (fun packed i => putNibble packed i (nib i)) (List.replicate m 0)).length = m ∧
    ∀ j, byteAt ((List.range k).foldl (fun packed i => putNibble packed i (nib i)) (List.replicate m 0)) j =
      (if 2 * j < k then UInt8.ofNat (nib (2 * j)) else 0) |||
        (if 2 * j + 1 < k then UInt8.ofNat (nib (2 * j + 1)) <<< 4 else 0) := by
  intro k
  induction k with
  | zero =>
    intro _
    refine ⟨List.length_replicate, fun j => ?_⟩
    simp [byteAt_replicate]
  | succ k ih =>
    intro hk
    obtain ⟨hlen, hbytes⟩ := ih (by omega)
    rw [List.range_succ, List.foldl_append, List.foldl_cons, List.foldl_nil]
    generalize (List.range k).foldl (fun packed i => putNibble packed i (nib i)) (List.replicate m 0) = p at hlen hbytes ⊢
    unfold putNibble
    split
    · rename_i heven
      refine ⟨by rw [List.length_set, hlen], fun j => ?_⟩
      rw [byteAt_set, hlen, hbytes j]
      by_cases hj : k / 2 = j
      · have hk2 : 2 * j = k := by omega
        rw [if_pos ⟨hj, by omega⟩, if_pos (by omega), if_neg (by omega), hk2]
        simp
      · have hlow : 2 * j < k ↔ 2 * j < k + 1 := by omega
        have hhigh : 2 * j + 1 < k ↔ 2 * j + 1 < k + 1 := by omega
        rw [if_neg (by tauto)]
        simp only [hlow, hhigh]
    · rename_i hodd
      refine ⟨by rw [List.length_set, hlen], fun j => ?_⟩
      rw [byteAt_set, hlen, hbytes, hbytes j]
      by_cases hj : k / 2 = j
      · have hk2 : 2 * j + 1 = k := by omega
        rw [if_pos ⟨hj, by omega⟩, hj, if_pos (by omega), if_neg (by omega), if_pos (by omega), if_pos (by omega), hk2]
        simp
      · have hlow : 2 * j < k ↔ 2 * j < k + 1 := by omega
        have hhigh : 2 * j + 1 < k ↔ 2 * j + 1 < k + 1 := by omega
        rw [if_neg (by tauto)]
        simp only [hlow, hhigh]

theorem packNibbles_length (nib : Nat → Nat) (n : Nat) : (packNibbles nib n).length = (n + 1) / 2 :=
  (putNibbles_spec nib ((n + 1) / 2) n (by omega)).1

theorem packNibbles_congr {nib nib' : Nat → Nat} {n : Nat} (h : ∀ i < n, nib i = nib' i) :
    packNibbles nib n = packNibbles nib' n :=
  List.foldl_ext _ _ _ fun packed i hi => by rw [h i (List.mem_range.mp hi)]

theorem two_nibbles : ∀ a b : Fin 16,
    ((UInt8.ofNat a ||| (UInt8.ofNat b <<< 4)) &&& 0xf).toNat = a ∧ ((UInt8.ofNat a ||| (UInt8.ofNat b <<< 4)) >>> 4).toNat = b := by
  decide +kernel

/-- Every nibble is read back. -/
theorem nibbleAt_packNibbles {nib : Nat → Nat} (hnib : ∀ i, nib i < 16) {n i : Nat} (hi : i < n) :
    nibbleAt (packNibbles nib n) i = nib i := by
  have hbyte := (putNibbles_spec nib ((n + 1) / 2) n (by omega)).2 (i / 2)
  have hlow : 2 * (i / 2) < n := by omega
  have hhigh : ∃ b < 16, (if 2 * (i / 2) + 1 < n then UInt8.ofNat (nib (2 * (i / 2) + 1)) <<< 4 else 0) = UInt8.ofNat b <<< 4 ∧
      (2 * (i / 2) + 1 < n → b = nib (2 * (i / 2) + 1)) := by
    split
    · exact ⟨_, hnib _, rfl, fun _ => rfl⟩
    · exact ⟨0, by decide, by decide, fun h => by omega⟩
  obtain ⟨b, hb, heq, hb'⟩ := hhigh
  rw [if_pos hlow, heq] at hbyte
  have hpair := two_nibbles ⟨nib (2 * (i / 2)), hnib _⟩ ⟨b, hb⟩
  unfold nibbleAt packNibbles
  rw [hbyte]
  split
  · have hi2 : 2 * (i / 2) = i := by omega
    rw [hpair.1, hi2]
  · have hi2 : 2 * (i / 2) + 1 = i := by omega
    have hb'' := hb' (by omega)
    rw [hi2] at hb''
    rw [hpair.2]
    exact hb''

/-! ## Small integers -/

theorem i8_toByte {v : Int} (hlo : -128 ≤ v) (hhi : v ≤ 127) : i8 (toByte v) = v := by
  have hnat : (toByte v).toNat = (v % 256).toNat := by
    rw [toByte, UInt8.toNat_ofNat']
    omega
  have hsmall : toByte v < 128 ↔ (v % 256).toNat < 128 := by
    rw [UInt8.lt_iff_toNat_lt, hnat]
    rfl
  simp only [i8, hsmall, hnat]
  split <;> omega

theorem toNibble_lt (v : Int) : toNibble v < 16 := by
  unfold toNibble
  omega

theorem signedNibble_toNibble {v : Int} (hlo : -8 ≤ v) (hhi : v ≤ 7) : signedNibble (toNibble v) = v := by
  unfold signedNibble toNibble
  split <;> omega

theorem int8Level_bounds (params : QuantParams) (scale x : ℚ) : -128 ≤ int8Level params scale x ∧ int8Level params scale x ≤ 127 := by
  unfold int8Level
  omega

theorem int4Level_bounds (scale x : ℚ) : -8 ≤ int4Level scale x ∧ int4Level scale x ≤ 7 := by
  unfold int4Level
  omega

/-! ## The code book -/

theorem kNf4Units_lt : ∀ j < 16, ∀ i < j, kNf4Units.getD i 0 < kNf4Units.getD j 0 := by decide

theorem kNf4_lt {i j : Nat} (hij : i < j) (hj : j < 16) : kNf4 i < kNf4 j := by
  unfold kNf4
  have hunits := kNf4Units_lt j hj i hij
  exact div_lt_div_of_pos_right (by exact_mod_cast hunits) (by norm_num)

theorem kNf4_le {i j : Nat} (hij : i ≤ j) (hj : j < 16) : kNf4 i ≤ kNf4 j := by
  rcases Nat.lt_or_eq_of_le hij with hlt | rfl
  · exact (kNf4_lt hlt hj).le
  · exact le_refl _

theorem kNf4_inj {i j : Nat} (hi : i < 16) (hj : j < 16) (h : kNf4 i = kNf4 j) : i = j := by
  rcases Nat.lt_trichotomy i j with hlt | heq | hlt
  · exact absurd h (kNf4_lt hlt hj).ne
  · exact heq
  · exact absurd h.symm (kNf4_lt hlt hi).ne

@[simp] theorem kNf4_first : kNf4 0 = -1 := by norm_num [kNf4, kNf4Units]

@[simp] theorem kNf4_zero : kNf4 7 = 0 := by norm_num [kNf4, kNf4Units]

@[simp] theorem kNf4_last : kNf4 15 = 1 := by norm_num [kNf4, kNf4Units]

theorem kNf4_bounds {i : Nat} (hi : i < 16) : -1 ≤ kNf4 i ∧ kNf4 i ≤ 1 :=
  ⟨kNf4_first ▸ kNf4_le (Nat.zero_le i) hi, kNf4_last ▸ kNf4_le (by omega) (by decide)⟩

theorem nearestNf4_spec (x : ℚ) : nearestNf4 x < 16 ∧ (∀ i < 16, |x - kNf4 (nearestNf4 x)| ≤ |x - kNf4 i|) ∧
    ∀ i < nearestNf4 x, |x - kNf4 (nearestNf4 x)| < |x - kNf4 i| :=
  Lists.foldl_first_min (fun i => |x - kNf4 i|) 16 (by decide)

theorem nearestNf4_self {i : Nat} (hi : i < 16) : nearestNf4 (kNf4 i) = i := by
  obtain ⟨hlt, hle, -⟩ := nearestNf4_spec (kNf4 i)
  have hzero := hle i hi
  rw [sub_self, abs_zero] at hzero
  have heq := abs_eq_zero.mp (le_antisymm hzero (abs_nonneg _))
  exact (kNf4_inj hi hlt (sub_eq_zero.mp heq)).symm

theorem clampUnit_of_level {i : Nat} (hi : i < 16) : max (-1) (min 1 (kNf4 i)) = kNf4 i := by
  obtain ⟨hlo, hhi⟩ := kNf4_bounds hi
  rw [min_eq_right hhi, max_eq_right hlo]

/-- A level times the scale is packed as itself. -/
theorem nf4Level_level {scale : ℚ} (hs : scale ≠ 0) {i : Nat} (hi : i < 16) : nf4Level scale (kNf4 i * scale) = i := by
  rw [nf4Level, mul_div_cancel_right₀ _ hs, clampUnit_of_level hi, nearestNf4_self hi]

theorem between_clamp {a b : ℚ} (ha : -1 ≤ a) (hb : b < 1) (x : ℚ) :
    a < max (-1) (min 1 x) ∧ max (-1) (min 1 x) ≤ b ↔ a < x ∧ x ≤ b := by
  constructor
  · intro h
    obtain ⟨hlo, hhi⟩ := h
    refine ⟨?_, ?_⟩
    · rcases lt_max_iff.mp hlo with h | h
      · linarith
      · exact (lt_min_iff.mp h).2
    · rcases min_le_iff.mp (max_le_iff.mp hhi).2 with h | h
      · linarith
      · exact h
  · intro h
    obtain ⟨hlo, hhi⟩ := h
    rw [min_eq_right (by linarith), max_eq_right (by linarith)]
    exact ⟨hlo, hhi⟩

/-- The level 0 is the nearest between the midpoints next to it. -/
theorem nearestNf4_zero_iff (v : ℚ) : nearestNf4 v = 7 ↔ kNf4 6 / 2 < v ∧ v ≤ kNf4 8 / 2 := by
  have h6 : kNf4 6 < 0 := kNf4_zero ▸ kNf4_lt (by decide) (by decide)
  have h8 : 0 < kNf4 8 := kNf4_zero ▸ kNf4_lt (by decide) (by decide)
  obtain ⟨hlt, hle, hfirst⟩ := nearestNf4_spec v
  generalize nearestNf4 v = b at hlt hle hfirst ⊢
  constructor
  · intro hb
    subst hb
    have hbelow := hfirst 6 (by decide)
    have habove := hle 8 (by decide)
    rw [kNf4_zero, sub_zero] at hbelow habove
    refine ⟨?_, ?_⟩
    · by_contra hno
      rw [abs_of_nonpos (by linarith)] at hbelow
      rcases abs_cases (v - kNf4 6) with ⟨he, -⟩ | ⟨he, -⟩ <;> linarith
    · by_contra hno
      rw [abs_of_nonneg (by linarith)] at habove
      rcases abs_cases (v - kNf4 8) with ⟨he, -⟩ | ⟨he, -⟩ <;> linarith
  · intro h
    obtain ⟨hlo, hhi⟩ := h
    rcases Nat.lt_trichotomy b 7 with hb | hb | hb
    · have hk : kNf4 b ≤ kNf4 6 := kNf4_le (by omega) (by decide)
      have hnear := hle 7 (by decide)
      rw [kNf4_zero, sub_zero, abs_of_pos (by linarith)] at hnear
      rcases abs_cases v with ⟨he, -⟩ | ⟨he, -⟩ <;> linarith
    · exact hb
    · have hk : kNf4 8 ≤ kNf4 b := kNf4_le (by omega) hlt
      have hnear := hfirst 7 hb
      rw [kNf4_zero, sub_zero, abs_of_nonpos (by linarith)] at hnear
      rcases abs_cases v with ⟨he, -⟩ | ⟨he, -⟩ <;> linarith

/-- What is packed as 0. -/
theorem nf4Level_zero_iff (scale x : ℚ) : nf4Level scale x = 7 ↔ kNf4 6 / 2 < x / scale ∧ x / scale ≤ kNf4 8 / 2 := by
  have h6 : -1 < kNf4 6 ∧ kNf4 6 < 0 := ⟨kNf4_first ▸ kNf4_lt (by decide) (by decide), kNf4_zero ▸ kNf4_lt (by decide) (by decide)⟩
  have h8 : 0 < kNf4 8 ∧ kNf4 8 < 1 := ⟨kNf4_zero ▸ kNf4_lt (by decide) (by decide), kNf4_last ▸ kNf4_lt (by decide) (by decide)⟩
  rw [nf4Level, nearestNf4_zero_iff]
  exact between_clamp (by linarith) (by linarith) _

/-! ## Levels -/

/-- What a packed element can stand for, before the scale. -/
def IsLevel (format : QuantFormat) (params : QuantParams) (l : ℚ) : Prop :=
  match format with
  | .int8 => ∃ q : Int, -128 ≤ q ∧ q ≤ 127 ∧ l = q - params.zeroPoint
  | .int4 => ∃ q : Int, -8 ≤ q ∧ q ≤ 7 ∧ l = q
  | .nf4 | .mxfp4 => ∃ i < 16, l = kNf4 i
  | _ => False

/-- A quotient, between the least and the largest level. -/
def clampLevel (format : QuantFormat) (params : QuantParams) (v : ℚ) : ℚ :=
  match format with
  | .int8 => max (-128 - params.zeroPoint) (min (127 - params.zeroPoint) v)
  | .int4 => max (-8) (min 7 v)
  | _ => max (-1) (min 1 v)

/-- `l` is a level, and none is nearer to `v`. -/
def NearestLevel (format : QuantFormat) (params : QuantParams) (v l : ℚ) : Prop :=
  IsLevel format params l ∧ ∀ l', IsLevel format params l' → |v - l| ≤ |v - l'|

/-- The scale element `i` is packed with. -/
def packScale (src : List ℚ) (format : QuantFormat) (params : QuantParams) (wantScales : Bool) (i : Nat) : ℚ :=
  match format with
  | .int8 => wholeScale src params 127
  | .int4 => wholeScale src params 7
  | _ => nf4Scale (if wantScales then groupScales src (groupSizeOf params) else []) params (groupSizeOf params) i

/-- The values come back as their nearest levels, and are packed the same again. -/
def RoundTrips (F : FloatStore) (src : List ℚ) (format : QuantFormat) (params : QuantParams) (wantScales : Bool) : Prop :=
  ∃ packed scales values, packF32 F src format params wantScales = .ok (packed, scales) ∧
    unpackToF32 F.ofBits (some packed) src.length format params scales true = .ok values ∧ values.length = src.length ∧
    (∀ i < src.length, ∃ l, values.getD i 0 = l * packScale src format params wantScales i ∧
      NearestLevel format params (clampLevel format params (src.getD i 0 / packScale src format params wantScales i)) l) ∧
    packF32 F values format params wantScales = .ok (packed, scales)

theorem readPacked_ok {packed : List UInt8} {need : Nat} {values : List ℚ} (h : need ≤ packed.length) :
    readPacked packed need values = .ok values := if_neg (Nat.not_lt.mpr h)

theorem getD_map_range {f : Nat → ℚ} {n i : Nat} (hi : i < n) : ((List.range n).map f).getD i 0 = f i := by
  rw [List.getD_eq_getElem?_getD, List.getElem?_map, List.getElem?_range hi]
  rfl

/-- A list is what its elements are. -/
theorem map_getD {β : Type} (xs : List ℚ) (f : ℚ → β) : xs.map f = (List.range xs.length).map fun i => f (xs.getD i 0) := by
  apply List.ext_getElem?
  intro i
  rw [List.getElem?_map, List.getElem?_map]
  by_cases hi : i < xs.length
  · rw [List.getElem?_range hi, List.getElem?_eq_getElem hi]
    simp [hi]
  · rw [List.getElem?_eq_none (by omega), List.getElem?_eq_none (by simpa using hi)]
    rfl

variable {F : FloatStore} {src : List ℚ} {params : QuantParams} {wantScales : Bool}

theorem wholeScale_given (hs : params.scale ≠ 0) (xs : List ℚ) (top : ℚ) : wholeScale xs params top = params.scale := if_neg hs

theorem unpackScale_given (hs : params.scale ≠ 0) :
    unpackScale (if wantScales then [params.scale] else []) params = params.scale := by
  cases wantScales with
  | true => rfl
  | false =>
    simp only [unpackScale, Bool.false_eq_true, if_false, ne_eq, not_true_eq_false]
    exact if_pos hs

/-! ## INT8 and INT4 -/

theorem int8_nearest (params : QuantParams) (scale x : ℚ) :
    NearestLevel .int8 params (clampLevel .int8 params (x / scale)) (int8Level params scale x - params.zeroPoint) := by
  have hclamp : clampLevel .int8 params (x / scale) =
      max ((-128 : Int) : ℚ) (min ((127 : Int) : ℚ) (x / scale + params.zeroPoint)) - params.zeroPoint := by
    push_cast
    rw [← max_sub_sub_right, ← min_sub_sub_right, add_sub_cancel_right]
    rfl
  obtain ⟨hlo, hhi⟩ := int8Level_bounds params scale x
  refine ⟨⟨_, hlo, hhi, rfl⟩, ?_⟩
  rintro l' ⟨q, -, -, rfl⟩
  rw [hclamp, sub_sub_sub_cancel_right, sub_sub_sub_cancel_right]
  exact Rounding.clamp_nearest (by decide) _ q

theorem int4_nearest (params : QuantParams) (scale x : ℚ) :
    NearestLevel .int4 params (clampLevel .int4 params (x / scale)) (int4Level scale x) := by
  have hclamp : clampLevel .int4 params (x / scale) = max ((-8 : Int) : ℚ) (min ((7 : Int) : ℚ) (x / scale)) := by
    push_cast
    rfl
  obtain ⟨hlo, hhi⟩ := int4Level_bounds scale x
  refine ⟨⟨_, hlo, hhi, rfl⟩, ?_⟩
  rintro l' ⟨q, -, -, rfl⟩
  rw [hclamp]
  exact Rounding.clamp_nearest (by decide) _ q

/-- An integer that is a level is packed as itself. -/
theorem int8Level_level {scale : ℚ} (hs : scale ≠ 0) {q : Int} (hlo : -128 ≤ q) (hhi : q ≤ 127) :
    int8Level params scale ((q - params.zeroPoint) * scale) = q := by
  unfold int8Level
  rw [mul_div_cancel_right₀ _ hs, sub_add_cancel, Rounding.halfEven_intCast]
  omega

theorem int4Level_level {scale : ℚ} (hs : scale ≠ 0) {q : Int} (hlo : -8 ≤ q) (hhi : q ≤ 7) : int4Level scale (q * scale) = q := by
  unfold int4Level
  rw [mul_div_cancel_right₀ _ hs, Rounding.halfEven_intCast]
  omega

theorem int8_round_trips (F : FloatStore) (src : List ℚ) (wantScales : Bool) (hs : params.scale ≠ 0) :
    RoundTrips F src .int8 params wantScales := by
  have hbyte : ∀ i < src.length, byteAt (src.map fun x => toByte (int8Level params params.scale x)) i =
      toByte (int8Level params params.scale (src.getD i 0)) := by
    intro i hi
    rw [map_getD, byteAt, List.getD_eq_getElem?_getD, List.getElem?_map, List.getElem?_range hi]
    rfl
  refine ⟨_, _, (List.range src.length).map fun i =>
    ((int8Level params params.scale (src.getD i 0) : Int) - params.zeroPoint) * params.scale, rfl, ?_, by simp, ?_, ?_⟩
  · simp only [unpackToF32, Bool.not_true, Bool.false_eq_true, if_false, wholeScale_given hs, unpackScale_given hs]
    rw [readPacked_ok (by simp)]
    congr 1
    apply List.map_congr_left
    intro i hi
    obtain ⟨hlo, hhi⟩ := int8Level_bounds params params.scale (src.getD i 0)
    rw [hbyte i (List.mem_range.mp hi), i8_toByte hlo hhi]
  · intro i hi
    refine ⟨_, ?_, int8_nearest params _ _⟩
    rw [getD_map_range hi, packScale, wholeScale_given hs]
  · simp only [packF32, wholeScale_given hs]
    congr 2
    rw [List.map_map, map_getD src]
    apply List.map_congr_left
    intro i _
    obtain ⟨hlo, hhi⟩ := int8Level_bounds params params.scale (src.getD i 0)
    show toByte (int8Level params params.scale (_ * params.scale)) = _
    rw [int8Level_level hs hlo hhi]

theorem int4_round_trips (F : FloatStore) (src : List ℚ) (wantScales : Bool) (hs : params.scale ≠ 0) :
    RoundTrips F src .int4 params wantScales := by
  refine ⟨_, _, (List.range src.length).map fun i => (int4Level params.scale (src.getD i 0) : Int) * params.scale, rfl, ?_,
    by simp, ?_, ?_⟩
  · simp only [unpackToF32, Bool.not_true, Bool.false_eq_true, if_false, wholeScale_given hs, unpackScale_given hs]
    rw [readPacked_ok (by rw [packNibbles_length])]
    congr 1
    apply List.map_congr_left
    intro i hi
    obtain ⟨hlo, hhi⟩ := int4Level_bounds params.scale (src.getD i 0)
    rw [nibbleAt_packNibbles (fun j => toNibble_lt _) (List.mem_range.mp hi), signedNibble_toNibble hlo hhi]
  · intro i hi
    refine ⟨_, ?_, int4_nearest params _ _⟩
    rw [getD_map_range hi, packScale, wholeScale_given hs]
  · simp only [packF32, wholeScale_given hs, List.length_map, List.length_range]
    congr 2
    apply packNibbles_congr
    intro i hi
    obtain ⟨hlo, hhi⟩ := int4Level_bounds params.scale (src.getD i 0)
    rw [getD_map_range hi, int4Level_level hs hlo hhi]

/-! ## NF4 and MXFP4 -/

theorem foldl_maxAbs : ∀ (xs : List ℚ) (m : ℚ), m ≤ xs.foldl (fun m x => max m |x|) m ∧
    (∀ x ∈ xs, |x| ≤ xs.foldl (fun m x => max m |x|) m) ∧
    (xs.foldl (fun m x => max m |x|) m = m ∨ ∃ x ∈ xs, |x| = xs.foldl (fun m x => max m |x|) m) := by
  intro xs
  induction xs with
  | nil => intro m; exact ⟨le_refl _, List.forall_mem_nil _, .inl rfl⟩
  | cons y xs ih =>
    intro m
    obtain ⟨hge, hall, hex⟩ := ih (max m |y|)
    refine ⟨(le_max_left _ _).trans hge, List.forall_mem_cons.mpr ⟨(le_max_right _ _).trans hge, hall⟩, ?_⟩
    rcases hex with heq | ⟨x, hx, hxe⟩
    · rcases max_choice m |y| with hm | hy
      · exact .inl (heq.trans hm)
      · exact .inr ⟨y, List.mem_cons_self, (heq.trans hy).symm⟩
    · exact .inr ⟨x, List.mem_cons_of_mem _ hx, hxe⟩

theorem maxAbs_spec (xs : List ℚ) :
    0 ≤ maxAbs xs ∧ (∀ x ∈ xs, |x| ≤ maxAbs xs) ∧ (maxAbs xs = 0 ∨ ∃ x ∈ xs, |x| = maxAbs xs) := foldl_maxAbs xs 0

theorem maxAbs_eq {xs : List ℚ} {m : ℚ} (hall : ∀ x ∈ xs, |x| ≤ m) (hex : m = 0 ∨ ∃ x ∈ xs, |x| = m) : maxAbs xs = m := by
  obtain ⟨hpos, hle, hmax⟩ := maxAbs_spec xs
  apply le_antisymm
  · rcases hmax with hz | ⟨x, hx, he⟩
    · rcases hex with rfl | ⟨x, hx, rfl⟩
      · exact hz.le
      · exact hz.le.trans (abs_nonneg x)
    · exact he ▸ hall x hx
  · rcases hex with rfl | ⟨x, hx, rfl⟩
    · exact hpos
    · exact hle x hx

theorem groupScale_pos (group : List ℚ) : 0 < groupScale group := by
  unfold groupScale
  split
  · assumption
  · exact one_pos

/-- An element as it comes back. -/
def nf4Back (scale x : ℚ) : ℚ := kNf4 (nf4Level scale x) * scale

theorem nf4Level_lt (scale x : ℚ) : nf4Level scale x < 16 := (nearestNf4_spec _).1

theorem nf4Level_back {scale : ℚ} (hs : scale ≠ 0) (x : ℚ) : nf4Level scale (nf4Back scale x) = nf4Level scale x :=
  nf4Level_level hs (nf4Level_lt scale x)

theorem abs_nf4Back_le {scale : ℚ} (hs : 0 < scale) (x : ℚ) : |nf4Back scale x| ≤ scale := by
  have hunit : |kNf4 (nf4Level scale x)| ≤ 1 := abs_le.mpr (kNf4_bounds (nf4Level_lt scale x))
  rw [nf4Back, abs_mul, abs_of_pos hs]
  exact mul_le_of_le_one_left hs.le hunit

/-- What is as large as the scale comes back as large. -/
theorem abs_nf4Back_top {scale x : ℚ} (hs : 0 < scale) (hx : |x| = scale) : |nf4Back scale x| = scale := by
  have hends : nf4Level scale x = 15 ∨ nf4Level scale x = 0 := by
    rcases abs_eq hs.le |>.mp hx with rfl | rfl
    · left
      have hself : nf4Level x (kNf4 15 * x) = 15 := nf4Level_level hs.ne' (by decide)
      rwa [kNf4_last, one_mul] at hself
    · right
      have hself : nf4Level scale (kNf4 0 * scale) = 0 := nf4Level_level hs.ne' (by decide)
      rwa [kNf4_first, neg_one_mul] at hself
  rw [nf4Back]
  rcases hends with he | he <;> simp [he, abs_of_pos hs]

/-- A group that came back has the scale it had. -/
theorem groupScale_back (group : List ℚ) : groupScale (group.map (nf4Back (groupScale group))) = groupScale group := by
  obtain ⟨hnonneg, hle, hmax⟩ := maxAbs_spec group
  by_cases hpos : 0 < maxAbs group
  · have hscale : groupScale group = maxAbs group := if_pos hpos
    have hsame : maxAbs (group.map (nf4Back (maxAbs group))) = maxAbs group := by
      apply maxAbs_eq
      · intro y hy
        obtain ⟨x, -, rfl⟩ := List.mem_map.mp hy
        exact abs_nf4Back_le hpos x
      · obtain ⟨x, hx, he⟩ := hmax.resolve_left hpos.ne'
        exact .inr ⟨_, List.mem_map_of_mem hx, abs_nf4Back_top hpos he⟩
    rw [hscale, groupScale, hsame, if_pos hpos]
  · have hzero : maxAbs group = 0 := le_antisymm (not_lt.mp hpos) hnonneg
    have hscale : groupScale group = 1 := if_neg hpos
    have hsame : maxAbs (group.map (nf4Back 1)) = 0 := by
      apply maxAbs_eq _ (.inl rfl)
      intro y hy
      obtain ⟨x, hx, rfl⟩ := List.mem_map.mp hy
      have hx0 : x = 0 := abs_eq_zero.mp (le_antisymm (hzero ▸ hle x hx) (abs_nonneg x))
      have hlevel := nf4Level_level one_ne_zero (i := 7) (by decide)
      rw [kNf4_zero, zero_mul] at hlevel
      rw [hx0, nf4Back, hlevel, kNf4_zero, zero_mul, abs_zero]
    rw [hscale, groupScale, hsame, if_neg (lt_irrefl 0)]

/-! ### Rows -/

theorem groupSizeOf_pos (params : QuantParams) : 0 < groupSizeOf params := by
  unfold groupSizeOf
  split <;> omega

theorem groupScales_length (xs : List ℚ) (gs : Nat) : (groupScales xs gs).length = (xs.length + gs - 1) / gs := by
  simp [groupScales]

theorem group_lt {n gs i : Nat} (hgs : 0 < gs) (hi : i < n) : i / gs < (n + gs - 1) / gs := by
  rw [Nat.lt_iff_add_one_le, Nat.le_div_iff_mul_le hgs, Nat.succ_mul]
  have hdiv := Nat.div_mul_le_self i gs
  omega

/-- The scale of an element is that of its group. -/
theorem groupScales_getD {xs : List ℚ} {gs g : Nat} (hg : g < (xs.length + gs - 1) / gs) :
    (groupScales xs gs).getD g 0 = groupScale ((xs.drop (g * gs)).take gs) := getD_map_range hg

theorem groupScales_ne_nil {xs : List ℚ} {gs i : Nat} (hgs : 0 < gs) (hi : i < xs.length) : groupScales xs gs ≠ [] := by
  have hlt := group_lt hgs hi
  rw [← groupScales_length] at hlt
  exact List.ne_nil_of_length_pos (Nat.lt_of_le_of_lt (Nat.zero_le _) hlt)

/-- The scales a row is packed with. -/
def rowScales (src : List ℚ) (params : QuantParams) (wantScales : Bool) : List ℚ :=
  if wantScales then groupScales src (groupSizeOf params) else []

/-- The scale element `i` is packed with. -/
def elemScale (src : List ℚ) (params : QuantParams) (wantScales : Bool) (i : Nat) : ℚ :=
  nf4Scale (rowScales src params wantScales) params (groupSizeOf params) i

theorem elemScale_wanted {i : Nat} (hi : i < src.length) :
    elemScale src params true i =
      groupScale ((src.drop (i / groupSizeOf params * groupSizeOf params)).take (groupSizeOf params)) := by
  have hgs := groupSizeOf_pos params
  rw [elemScale, nf4Scale, rowScales, if_pos rfl, if_pos (groupScales_ne_nil hgs hi), groupScales_getD (group_lt hgs hi)]

theorem elemScale_unwanted (hs : params.scale ≠ 0) (i : Nat) : elemScale src params false i = params.scale := by
  simp [elemScale, nf4Scale, rowScales, hs]

theorem elemScale_ne_zero (hs : params.scale ≠ 0) {i : Nat} (hi : i < src.length) : elemScale src params wantScales i ≠ 0 := by
  cases wantScales with
  | true =>
    rw [elemScale_wanted hi]
    exact (groupScale_pos _).ne'
  | false =>
    rw [elemScale_unwanted hs]
    exact hs

/-- The row as it comes back, with the scales it was packed with. -/
def backRow (src : List ℚ) (params : QuantParams) (wantScales : Bool) : List ℚ :=
  (List.range src.length).map fun i => nf4Back (elemScale src params wantScales i) (src.getD i 0)

theorem backRow_length (src : List ℚ) (params : QuantParams) (wantScales : Bool) :
    (backRow src params wantScales).length = src.length := by
  simp [backRow]

theorem backRow_group (src : List ℚ) (params : QuantParams) (g : Nat) :
    ((backRow src params true).drop (g * groupSizeOf params)).take (groupSizeOf params) =
      ((src.drop (g * groupSizeOf params)).take (groupSizeOf params)).map
        (nf4Back (groupScale ((src.drop (g * groupSizeOf params)).take (groupSizeOf params)))) := by
  have hgs := groupSizeOf_pos params
  apply List.ext_getElem?
  intro t
  rw [List.getElem?_map, List.getElem?_take, List.getElem?_take]
  split
  · rename_i ht
    rw [List.getElem?_drop, List.getElem?_drop, backRow, List.getElem?_map]
    by_cases hi : g * groupSizeOf params + t < src.length
    · have hg : (g * groupSizeOf params + t) / groupSizeOf params = g := by
        rw [Nat.mul_comm, Nat.mul_add_div hgs, Nat.div_eq_of_lt ht, Nat.add_zero]
      rw [List.getElem?_range hi, List.getElem?_eq_getElem hi, Option.map_some, Option.map_some, elemScale_wanted hi, hg]
      simp [hi]
    · have hrange : (List.range src.length)[g * groupSizeOf params + t]? = none := List.getElem?_eq_none (by simpa using hi)
      have hsrc : src[g * groupSizeOf params + t]? = none := List.getElem?_eq_none (by omega)
      rw [hrange, hsrc]
      rfl
  · rfl

theorem rowScales_back (src : List ℚ) (params : QuantParams) (wantScales : Bool) :
    rowScales (backRow src params wantScales) params wantScales = rowScales src params wantScales := by
  cases wantScales with
  | false => rfl
  | true =>
    simp only [rowScales, if_true, groupScales, backRow_length]
    apply List.map_congr_left
    intro g _
    rw [backRow_group, groupScale_back]

theorem packNf4_eq (xs : List ℚ) (params : QuantParams) (wantScales : Bool) : packNf4 xs params wantScales =
    (packNibbles (fun i => nf4Level (elemScale xs params wantScales i) (xs.getD i 0)) xs.length,
      rowScales xs params wantScales) := rfl

/-- What came back is packed as the row was. -/
theorem packNf4_back (hs : params.scale ≠ 0) (src : List ℚ) (wantScales : Bool) :
    packNf4 (backRow src params wantScales) params wantScales = packNf4 src params wantScales := by
  have hscales := rowScales_back src params wantScales
  have hnibs : packNibbles (fun i => nf4Level (elemScale (backRow src params wantScales) params wantScales i)
      ((backRow src params wantScales).getD i 0)) src.length =
        packNibbles (fun i => nf4Level (elemScale src params wantScales i) (src.getD i 0)) src.length := by
    apply packNibbles_congr
    intro i hi
    have hscale : elemScale (backRow src params wantScales) params wantScales i = elemScale src params wantScales i := by
      rw [elemScale, hscales, elemScale]
    rw [hscale, backRow, getD_map_range hi]
    exact nf4Level_back (elemScale_ne_zero hs hi) _
  rw [packNf4_eq, packNf4_eq, backRow_length, hnibs, hscales]

theorem nibble_packNf4 {i : Nat} (hi : i < src.length) :
    nibbleAt (packNf4 src params wantScales).1 i = nf4Level (elemScale src params wantScales i) (src.getD i 0) :=
  nibbleAt_packNibbles (fun _ => nf4Level_lt _ _) hi

theorem nf4_nearest (params : QuantParams) (scale x : ℚ) :
    NearestLevel .nf4 params (clampLevel .nf4 params (x / scale)) (kNf4 (nf4Level scale x)) := by
  refine ⟨⟨_, nf4Level_lt scale x, rfl⟩, ?_⟩
  rintro l' ⟨i, hi, rfl⟩
  exact (nearestNf4_spec _).2.1 i hi

/-- The values that `unpack_to_f32` writes for a packed row. -/
theorem unpack_packNf4 (F : FloatBits ℚ) (src : List ℚ) (params : QuantParams) (wantScales : Bool) :
    unpackToF32 F (some (packNf4 src params wantScales).1) src.length .nf4 params (rowScales src params wantScales) true =
      .ok ((List.range src.length).map fun i => kNf4 (nf4Level (elemScale src params wantScales i) (src.getD i 0)) *
        unpackNf4Scale (rowScales src params wantScales) (groupSizeOf params) i) := by
  simp only [unpackToF32, Bool.not_true, Bool.false_eq_true, if_false]
  rw [readPacked_ok (by rw [packNf4, packNibbles_length])]
  congr 1
  apply List.map_congr_left
  intro i hi
  rw [nibble_packNf4 (List.mem_range.mp hi)]

/-- Where the two scales agree, or the levels are 0, a row round-trips. -/
theorem nf4_round_trips (F : FloatStore) (hs : params.scale ≠ 0)
    (h : ∀ i < src.length, kNf4 (nf4Level (elemScale src params wantScales i) (src.getD i 0)) *
      unpackNf4Scale (rowScales src params wantScales) (groupSizeOf params) i =
        nf4Back (elemScale src params wantScales i) (src.getD i 0)) : RoundTrips F src .nf4 params wantScales := by
  refine ⟨_, _, backRow src params wantScales, rfl, ?_, backRow_length _ _ _, fun i hi => ?_, ?_⟩
  · refine (unpack_packNf4 F.ofBits src params wantScales).trans ?_
    congr 1
    exact List.map_congr_left fun i hi => h i (List.mem_range.mp hi)
  · refine ⟨_, ?_, nf4_nearest params _ _⟩
    rw [backRow, getD_map_range hi]
    rfl
  · show Except.ok (packNf4 _ _ _) = _
    rw [packNf4_back hs]
    rfl

theorem unpackScale_wanted {i : Nat} (hi : i < src.length) :
    unpackNf4Scale (rowScales src params true) (groupSizeOf params) i = elemScale src params true i := by
  have hgs := groupSizeOf_pos params
  have hlt := group_lt hgs hi
  rw [← groupScales_length] at hlt
  have hmin : min ((groupScales src (groupSizeOf params)).length - 1) (i / groupSizeOf params) = i / groupSizeOf params := by omega
  simp only [unpackNf4Scale, elemScale, nf4Scale, rowScales, if_true, hmin, if_pos (groupScales_ne_nil hgs hi)]

/-- The values are all packed as 0. -/
def PackedAsZero (src : List ℚ) (params : QuantParams) : Prop :=
  ∀ x ∈ src, kNf4 6 / 2 < x / params.scale ∧ x / params.scale ≤ kNf4 8 / 2

theorem getD_of_lt {i : Nat} (hi : i < src.length) : src.getD i 0 = src[i] := by
  rw [List.getD_eq_getElem?_getD, List.getElem?_eq_getElem hi, Option.getD_some]

theorem getD_mem {i : Nat} (hi : i < src.length) : src.getD i 0 ∈ src := by
  rw [getD_of_lt hi]
  exact List.getElem_mem hi

/-- A row packed without scales, and with one other than 1, comes back wrong unless all of
    it is 0. -/
theorem zero_of_round_trips (hs : params.scale ≠ 0) (h1 : params.scale ≠ 1) (h : RoundTrips F src .nf4 params false) :
    PackedAsZero src params := by
  obtain ⟨packed, scales, values, hpack, hunpack, hlen, hvalues, hagain⟩ := h
  obtain ⟨rfl, rfl⟩ : (packNf4 src params false).1 = packed ∧ [] = scales := by
    have hpair := Except.ok.inj hpack
    exact ⟨congrArg Prod.fst hpair, congrArg Prod.snd hpair⟩
  have hread := (unpack_packNf4 F.ofBits src params false).symm.trans hunpack
  have hback : packNf4 values params false = packNf4 src params false :=
    Except.ok.inj (hagain.trans hpack.symm)
  intro x hx
  obtain ⟨i, hi, rfl⟩ := List.getElem_of_mem hx
  rw [← getD_of_lt hi, ← nf4Level_zero_iff]
  have hvalue : values.getD i 0 = kNf4 (nf4Level params.scale (src.getD i 0)) := by
    rw [← Except.ok.inj hread, getD_map_range hi, elemScale_unwanted hs]
    simp [unpackNf4Scale, rowScales]
  obtain ⟨l, hl, ⟨⟨j, hj, rfl⟩, -⟩⟩ := hvalues i hi
  replace hl : values.getD i 0 = kNf4 j * params.scale := by
    rw [hl]
    congr 1
    exact elemScale_unwanted hs i
  -- packed again, the element is level `j`, and it was the level that came back
  have hlevel : nf4Level params.scale (src.getD i 0) = j := by
    have hnib : nibbleAt (packNf4 values params false).1 i = nibbleAt (packNf4 src params false).1 i := by rw [hback]
    rw [nibble_packNf4 hi, nibble_packNf4 (by omega), elemScale_unwanted hs, elemScale_unwanted hs, hl,
      nf4Level_level hs hj] at hnib
    exact hnib.symm
  rw [hvalue, hlevel] at hl
  have hzero : kNf4 j = kNf4 7 := by
    rw [kNf4_zero]
    by_contra hne
    exact h1 (mul_left_cancel₀ hne (by rw [← hl, mul_one]))
  rw [hlevel]
  exact kNf4_inj hj (by decide) hzero

/-! ## All four -/

theorem nf4_round_trip_iff (F : FloatStore) (src : List ℚ) (wantScales : Bool) (hs : params.scale ≠ 0) :
    RoundTrips F src .nf4 params wantScales ↔ wantScales = true ∨ params.scale = 1 ∨ PackedAsZero src params := by
  constructor
  · intro h
    cases wantScales with
    | true => exact .inl rfl
    | false =>
      by_cases h1 : params.scale = 1
      · exact .inr (.inl h1)
      · exact .inr (.inr (zero_of_round_trips hs h1 h))
  · intro h
    cases wantScales with
    | true =>
      refine nf4_round_trips F hs fun i hi => ?_
      rw [unpackScale_wanted hi]
      rfl
    | false =>
      refine nf4_round_trips F hs fun i hi => ?_
      have hone : unpackNf4Scale (rowScales src params false) (groupSizeOf params) i = 1 := by simp [unpackNf4Scale, rowScales]
      rw [hone, nf4Back, elemScale_unwanted hs]
      rcases h with hw | h1 | hzero
      · cases hw
      · rw [h1]
      · rw [(nf4Level_zero_iff _ _).mpr (hzero _ (getD_mem hi)), kNf4_zero, zero_mul, zero_mul]

/-- With a scale that is not 0, values come back as their nearest levels, and pack the same
    again, exactly when the format is INT8 or INT4, the scales are kept, the scale is 1, or
    every value is packed as 0. -/
theorem round_trip_iff (F : FloatStore) (src : List ℚ) {format : QuantFormat} (params : QuantParams) (wantScales : Bool)
    (hf : format = .int8 ∨ format = .int4 ∨ format = .nf4 ∨ format = .mxfp4) (hs : params.scale ≠ 0) :
    RoundTrips F src format params wantScales ↔
      (format = .int8 ∨ format = .int4) ∨ wantScales = true ∨ params.scale = 1 ∨ PackedAsZero src params := by
  rcases hf with rfl | rfl | rfl | rfl
  · exact ⟨fun _ => .inl (.inl rfl), fun _ => int8_round_trips F src wantScales hs⟩
  · exact ⟨fun _ => .inl (.inr rfl), fun _ => int4_round_trips F src wantScales hs⟩
  · rw [nf4_round_trip_iff F src wantScales hs]
    simp
  · have hsame : RoundTrips F src .mxfp4 params wantScales ↔ RoundTrips F src .nf4 params wantScales := Iff.rfl
    rw [hsame, nf4_round_trip_iff F src wantScales hs]
    simp

/-- Floats stored as nothing: the four formats do not use their bits. -/
def noBits : FloatStore := ⟨fun _ => 0, ⟨fun _ => 0, fun _ => 0⟩⟩

theorem nf4_pair_round_trips : RoundTrips noBits [1, -3] .nf4 ⟨2, 0, 0⟩ true ↔
    ((QuantFormat.nf4 = .int8 ∨ QuantFormat.nf4 = .int4) ∨ true = true ∨ (2 : ℚ) = 1 ∨ PackedAsZero [1, -3] ⟨2, 0, 0⟩) :=
  round_trip_iff noBits [1, -3] ⟨2, 0, 0⟩ true (.inr (.inr (.inl rfl))) (by decide)

/-- Packed with a scale of 2 and no vector of scales, 2 comes back as 1. -/
theorem nf4_scale_lost : ¬ RoundTrips noBits [2] .nf4 ⟨2, 0, 0⟩ false := by
  intro h
  have hs : (⟨2, 0, 0⟩ : QuantParams).scale ≠ 0 := by decide
  have hzero := zero_of_round_trips hs (by decide) h 2 List.mem_cons_self
  have h8 : kNf4 8 < 1 := kNf4_last ▸ kNf4_lt (by decide) (by decide)
  have hle := hzero.2
  norm_num at hle
  linarith

end Uaii.Quant
