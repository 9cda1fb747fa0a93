/-
  Uaii.Runtime.SampledTokens — which token `sample_token_f32` returns
  (`libs/uaii-runtime/src/sampling.cpp`).

  The standard library's selection and sort are what they are documented to be, whatever
  they do with ties; of `exp` only its sign is used.

  Proved, for every row that is not empty: the token is one of the vocabulary; the greedy
  one is the first largest; otherwise it is drawn from the kept candidates, cut to the
  shortest prefix that reaches `top_p`, each over an interval of draws as long as its share
  (`sample_token_drawn`).

  As built, the cut is made for `0 < top_p < 1 - 1e-6` only: above, the candidates that a
  shortest prefix would leave out stay (`high_top_p_keeps_all`).
-/

import Mathlib.Data.List.Basic
import Mathlib.Data.List.Nodup
import Uaii.Lib.Weighted
import Uaii.Runtime.Sampling

namespace Uaii.Runtime

open Weighted

variable {K G : Type} [Field K] [LinearOrder K]

/-! ## The standard library -/

structure SamplerLib.Lawful (lib : SamplerLib K G) : Prop where
  exp_pos : ∀ x, 0 < lib.exp x
  nth_perm : ∀ k l, (lib.nthElement k l).Perm l
  /-- No entry from `k` on is larger than one before it. -/
  nth_split : ∀ k l, k < l.length → ∀ a ∈ (lib.nthElement k l).take k, ∀ b ∈ (lib.nthElement k l).drop k, b.1 ≤ a.1
  sort_perm : ∀ l, (lib.sortDown l).Perm l
  sort_down : ∀ l, (lib.sortDown l).Pairwise fun a b => b.1 ≤ a.1

/-! ## What should be drawn -/

/-- How many candidates top-k keeps. -/
def keptCount (p : SampleParams K) (vocab : Nat) : Nat := if 0 < p.topK ∧ p.topK.toNat < vocab then p.topK.toNat else vocab

/-- Candidates that no discarded token beats. -/
structure Kept (v : Nat → K) (vocab k : Nat) (S : List Int) : Prop where
  nodup : S.Nodup
  length : S.length = k
  inside : ∀ t ∈ S, 0 ≤ t ∧ t < vocab
  largest : ∀ t ∈ S, ∀ u : Int, 0 ≤ u → u < vocab → u ∉ S → v u.toNat ≤ v t.toNat

/-- `exp` of the distance to the largest score. -/
def weight (exp : K → K) (f : Int → K) (S : List Int) (t : Int) : K := exp (f t - (maxElement (S.map fun u => (f u, u))).1)

/-- The softmax over the candidates. -/
def prob (exp : K → K) (f : Int → K) (S : List Int) (t : Int) : K := weight exp f S t / mass (weight exp f S) S

/-- The shortest prefix, most probable first, whose mass reaches `topP`. -/
def Nucleus (pr : Int → K) (topP : K) (S N : List Int) : Prop :=
  ∃ L : List Int, L.Perm S ∧ L.Pairwise (fun a b => pr b ≤ pr a) ∧ Shortest pr topP L N

/-- Each token of `N` is drawn over an interval as long as its share. -/
structure DrawnFrom (pr : Int → K) (N : List Int) (token : K → Int) : Prop where
  mem : ∀ r, token r ∈ N
  share : ∀ t ∈ N, ∃ lo hi, hi - lo = pr t / mass pr N ∧ 0 ≤ lo ∧ hi ≤ 1 ∧
    ∀ r, 0 < r → r ≤ 1 → (token r = t ↔ lo < r ∧ r ≤ hi)

/-! ## The model's loops on tokens and their values -/

section

variable {f : Int → K} {S : List Int}

omit [Field K] [LinearOrder K] in
theorem map_snd_pairs (f : Int → K) (S : List Int) : (S.map fun t => (f t, t)).map (·.2) = S := by
  rw [List.map_map]
  exact List.map_id S

omit [Field K] [LinearOrder K] in
/-- Entries that carry their own value. -/
theorem pairs_of_mem {l : List (K × Int)} (h : ∀ s ∈ l, s = (f s.2, s.2)) : l = (l.map (·.2)).map fun t => (f t, t) := by
  rw [List.map_map]
  calc l = l.map id := (List.map_id l).symm
    _ = l.map _ := List.map_congr_left fun s hs => h s hs

omit [LinearOrder K] in
theorem foldl_mass (f : Int → K) (S : List Int) : ((S.map fun t => (f t, t)).map (·.1)).foldl (· + ·) 0 = mass f S := by
  rw [← List.sum_eq_foldl, List.map_map]
  rfl

theorem nucleus_pairs (f : Int → K) (topP cum : K) (S : List Int) :
    nucleus topP cum (S.map fun t => (f t, t)) = (upTo f topP cum S).map fun t => (f t, t) := by
  induction S generalizing cum with
  | nil => rfl
  | cons t S ih =>
    rw [List.map_cons, nucleus, upTo]
    split
    · rfl
    · rw [List.map_cons, ih]

theorem pick_pairs (f : Int → K) (r cum : K) (S : List Int) :
    pick r cum (S.map fun t => (f t, t)) = (drawn f r cum S).getD 0 := by
  induction S generalizing cum with
  | nil => rfl
  | cons t S ih =>
    rw [List.map_cons, pick, drawn]
    by_cases hstop : r ≤ cum + f t ∨ S = []
    · rw [if_pos hstop, if_pos (by simpa using hstop)]
      rfl
    · rw [if_neg hstop, if_neg (by simpa using hstop)]
      exact ih (cum + f t)

variable {lib : SamplerLib K G} {p : SampleParams K}

/-! ## The candidates -/

/-- Top-k keeps candidates that no discarded one beats. -/
theorem topK_kept (hlib : lib.Lawful) (p : SampleParams K) (f : Int → K) {V : List Int} (hV : V.Nodup) :
    ∃ S : List Int,
      (if 0 < p.topK ∧ p.topK.toNat < (V.map fun t => (f t, t)).length then
        (lib.nthElement p.topK.toNat (V.map fun t => (f t, t))).take p.topK.toNat else V.map fun t => (f t, t)) =
          (S.map fun t => (f t, t)) ∧
      S.Nodup ∧ S.length = keptCount p V.length ∧ (∀ t ∈ S, t ∈ V) ∧ ∀ t ∈ S, ∀ u ∈ V, u ∉ S → f u ≤ f t := by
  rw [List.length_map]
  unfold keptCount
  by_cases hk : 0 < p.topK ∧ p.topK.toNat < V.length
  · rw [if_pos hk, if_pos hk]
    generalize p.topK.toNat = k at hk
    have hperm := hlib.nth_perm k (V.map fun t => (f t, t))
    have hsplit := hlib.nth_split k (V.map fun t => (f t, t)) (by rw [List.length_map]; exact hk.2)
    have hpairs : ∀ s ∈ lib.nthElement k (V.map fun t => (f t, t)), s = (f s.2, s.2) := by
      intro s hs
      obtain ⟨t, -, rfl⟩ := List.mem_map.mp (hperm.mem_iff.mp hs)
      rfl
    have hsnd : ((lib.nthElement k (V.map fun t => (f t, t))).map (·.2)).Perm V := by
      have hmap := hperm.map (·.2)
      rwa [map_snd_pairs] at hmap
    rw [pairs_of_mem hpairs, ← List.map_take]
    rw [pairs_of_mem hpairs, ← List.map_take, ← List.map_drop] at hsplit
    generalize (lib.nthElement k (V.map fun t => (f t, t))).map (·.2) = L at hsnd hsplit
    refine ⟨L.take k, rfl, (List.take_sublist k L).nodup (hsnd.nodup_iff.mpr hV), ?_, fun t ht => ?_, fun t ht u hu hout => ?_⟩
    · rw [List.length_take, hsnd.length_eq]
      omega
    · exact hsnd.mem_iff.mp (List.mem_of_mem_take ht)
    · have hdrop : u ∈ L.drop k := by
        have hL := hsnd.mem_iff.mpr hu
        rw [← List.take_append_drop k L] at hL
        exact (List.mem_append.mp hL).resolve_left hout
      exact hsplit (f t, t) (List.mem_map.mpr ⟨t, ht, rfl⟩) (f u, u) (List.mem_map.mpr ⟨u, hdrop, rfl⟩)
  · rw [if_neg hk, if_neg hk]
    exact ⟨V, rfl, hV, rfl, fun t ht => ht, fun t _ u hu hout => absurd hu hout⟩

theorem weight_pos {exp : K → K} (hexp : ∀ x, 0 < exp x) (f : Int → K) (S : List Int) (t : Int) : 0 < weight exp f S t :=
  hexp _

/-- The sorted candidates, cut. -/
theorem nucleus_cut (hlib : lib.Lawful) {pr : Int → K} {topP : K} (htop : 0 < topP) (hS : S.Nodup)
    (hreach : topP ≤ mass pr S) :
    ∃ N : List Int, nucleus topP 0 (lib.sortDown (S.map fun t => (pr t, t))) = (N.map fun t => (pr t, t)) ∧
      Nucleus pr topP S N ∧ N.Nodup ∧ N ≠ [] ∧ ∀ t ∈ N, t ∈ S := by
  have hperm := hlib.sort_perm (S.map fun t => (pr t, t))
  have hdown := hlib.sort_down (S.map fun t => (pr t, t))
  have hpairs : ∀ s ∈ lib.sortDown (S.map fun t => (pr t, t)), s = (pr s.2, s.2) := by
    intro s hs
    obtain ⟨t, -, rfl⟩ := List.mem_map.mp (hperm.mem_iff.mp hs)
    rfl
  have hsnd : ((lib.sortDown (S.map fun t => (pr t, t))).map (·.2)).Perm S := by
    have hmap := hperm.map (·.2)
    rwa [map_snd_pairs] at hmap
  rw [pairs_of_mem hpairs] at hdown ⊢
  generalize (lib.sortDown (S.map fun t => (pr t, t))).map (·.2) = L at hsnd hdown
  rw [nucleus_pairs]
  have hshort : Shortest pr topP L (upTo pr topP 0 L) := upTo_shortest htop (by rwa [mass_perm hsnd])
  obtain ⟨n, htake, -⟩ := hshort.isPrefix
  refine ⟨upTo pr topP 0 L, rfl, ⟨L, hsnd, List.pairwise_map.mp hdown, hshort⟩, ?_, fun h => ?_, fun t ht => ?_⟩
  · rw [htake]
    exact (List.take_sublist n L).nodup (hsnd.nodup_iff.mpr hS)
  · have hmass := hshort.reaches
    rw [h, mass_nil] at hmass
    exact absurd htop (not_lt.mpr hmass)
  · rw [htake] at ht
    exact hsnd.mem_iff.mp (List.mem_of_mem_take ht)

variable [IsStrictOrderedRing K]

theorem prob_pos {exp : K → K} (hexp : ∀ x, 0 < exp x) (hS : S ≠ []) (t : Int) : 0 < prob exp f S t :=
  div_pos (weight_pos hexp f S t) (mass_pos (fun a _ => weight_pos hexp f S a) hS)

theorem mass_prob {exp : K → K} (hexp : ∀ x, 0 < exp x) (hS : S ≠ []) : mass (prob exp f S) S = 1 := by
  have hpos : 0 < mass (weight exp f S) S := mass_pos (fun a _ => weight_pos hexp f S a) hS
  show mass (fun t => weight exp f S t / mass (weight exp f S) S) S = 1
  rw [mass_div, div_self hpos.ne']

/-- The walk over the shares. -/
theorem drawnFrom_pick {pr : Int → K} {N : List Int} (hpos : ∀ t ∈ N, 0 < pr t) (hne : N ≠ []) (hnodup : N.Nodup) :
    DrawnFrom pr N fun r => pick r 0 (N.map fun t => (pr t / mass pr N, t)) := by
  have hmass := mass_pos hpos hne
  have hshare : ∀ t ∈ N, 0 < pr t / mass pr N := fun t ht => div_pos (hpos t ht) hmass
  have hone : mass (fun t => pr t / mass pr N) N = 1 := by rw [mass_div, div_self hmass.ne']
  refine ⟨fun r => ?_, fun t ht => ?_⟩
  · obtain ⟨t, ht, hdrawn⟩ := drawn_mem (fun t => pr t / mass pr N) r 0 N hne
    rw [pick_pairs, hdrawn]
    exact ht
  · obtain ⟨lo, hi, hlen, hlo, hhi, hiff⟩ := drawn_interval hshare hnodup 0 ht
    rw [hone, zero_add] at hhi hiff
    refine ⟨lo, hi, hlen, hlo, hhi, fun r hr hr1 => ?_⟩
    rw [pick_pairs, ← hiff r hr hr1]
    obtain ⟨u, -, hdrawn⟩ := drawn_mem (fun t => pr t / mass pr N) r 0 N hne
    rw [hdrawn, Option.getD_some, Option.some.injEq]

/-- What the draw is made from. -/
theorem drawToken_drawn (hlib : lib.Lawful) (p : SampleParams K) (f : Int → K) {V : List Int} (hV : V.Nodup) (hne : V ≠ []) :
    ∃ (S N : List Int) (token : K → Int),
      (∀ rng, drawToken lib p (V.map fun t => (f t, t)) rng = (token (lib.uniform rng).1, (lib.uniform rng).2)) ∧
      (S.Nodup ∧ S.length = keptCount p V.length ∧ (∀ t ∈ S, t ∈ V) ∧ ∀ t ∈ S, ∀ u ∈ V, u ∉ S → f u ≤ f t) ∧
      (∀ t ∈ N, t ∈ S) ∧ (cuts p → Nucleus (prob lib.exp f S) p.topP S N) ∧ (¬ cuts p → N = S) ∧
      DrawnFrom (prob lib.exp f S) N token := by
  obtain ⟨S, hscored, hkept⟩ := topK_kept hlib p f hV
  have hS : S ≠ [] := by
    have hVlen := List.length_pos_of_ne_nil hne
    intro h
    have hlen := hkept.2.1
    rw [h, List.length_nil, keptCount] at hlen
    split at hlen <;> omega
  have hpr : ∀ t, 0 < prob lib.exp f S t := prob_pos hlib.exp_pos hS
  have hone : mass (prob lib.exp f S) S = 1 := mass_prob hlib.exp_pos hS
  have hsum : 0 < mass (weight lib.exp f S) S := mass_pos (fun a _ => weight_pos hlib.exp_pos f S a) hS
  have hweights : ((S.map fun t => (f t, t)).map fun s => (lib.exp (s.1 - (maxElement (S.map fun t => (f t, t))).1), s.2)) =
      S.map fun t => (weight lib.exp f S t, t) := List.map_map
  have hprobs : ((S.map fun t => (weight lib.exp f S t, t)).map fun s => (s.1 / mass (weight lib.exp f S) S, s.2)) =
      S.map fun t => (prob lib.exp f S t, t) := List.map_map
  by_cases hcut : cuts p
  · have hreach : p.topP ≤ mass (prob lib.exp f S) S := by
      rw [hone]
      linarith [hcut.2]
    obtain ⟨N, hnucleus, hN, hnodup, hNne, hsub⟩ := nucleus_cut hlib hcut.1 hkept.1 hreach
    have hrenorm : 0 < mass (prob lib.exp f S) N := mass_pos (fun t _ => hpr t) hNne
    refine ⟨S, N, _, fun rng => ?_, hkept, hsub, fun _ => hN, fun h => absurd hcut h,
      drawnFrom_pick (fun t _ => hpr t) hNne hnodup⟩
    unfold drawToken
    rw [hscored]
    dsimp only
    rw [hweights, foldl_mass, if_neg (not_not.mpr hsum), hprobs, if_pos hcut, hnucleus, foldl_mass, if_pos hrenorm, List.map_map]
    rfl
  · refine ⟨S, S, _, fun rng => ?_, hkept, fun t ht => ht, fun h => absurd h hcut, fun _ => rfl,
      drawnFrom_pick (fun t _ => hpr t) hS hkept.1⟩
    unfold drawToken
    rw [hscored]
    dsimp only
    rw [hweights, foldl_mass, if_neg (not_not.mpr hsum), hprobs, if_neg hcut]
    simp only [hone, div_one]

/-! ## The token -/

omit [IsStrictOrderedRing K] in
/-- The entries that the scores are put in. -/
theorem scored_eq (row : List K) (p : SampleParams K) (history : List Int) :
    ((List.range row.length).map fun i : Nat => (penalized row p history i * (1 / max p.temperature (1 / 100000)), (i : Int))) =
      ((List.range row.length).map fun i : Nat => (i : Int)).map fun t => (score row p history t, t) := by
  rw [List.map_map]
  rfl

/-- Scores order the candidates as penalised scores do. -/
theorem score_le_iff {row : List K} {history : List Int} {t u : Int} :
    score row p history u ≤ score row p history t ↔
      penalized row p history u.toNat ≤ penalized row p history t.toNat := by
  have hpos : 0 < 1 / max p.temperature (1 / 100000) := one_div_pos.mpr (lt_max_of_lt_right (by norm_num))
  exact mul_le_mul_iff_of_pos_right hpos

theorem sample_token_drawn (hlib : lib.Lawful) {row : List K} (hrow : row ≠ []) (p : SampleParams K) (history : List Int) :
    ∃ token : K → Int,
      (∀ rng, ∃ rng', sampleTokenF32 lib row p history rng = .ok (token (lib.uniform rng).1, rng')) ∧
      (∀ r, 0 ≤ token r ∧ token r < row.length) ∧
      (p.greedy = true → ∀ r, (∀ i < row.length, penalized row p history i ≤ penalized row p history (token r).toNat) ∧
        ∀ i < (token r).toNat, penalized row p history i < penalized row p history (token r).toNat) ∧
      (p.greedy = false → ∃ S N : List Int, Kept (penalized row p history) row.length (keptCount p row.length) S ∧
        (cuts p → Nucleus (prob lib.exp (score row p history) S) p.topP S N) ∧ (¬ cuts p → N = S) ∧
        DrawnFrom (prob lib.exp (score row p history) S) N token) := by
  have hlen : row.length ≠ 0 := fun h => hrow (List.length_eq_zero_iff.mp h)
  cases hgreedy : p.greedy with
  | true =>
    obtain ⟨hle, hlt⟩ := greedyToken_largest (penalized row p history) row.length
    refine ⟨fun _ => (greedyToken (penalized row p history) row.length : Int), fun rng => ⟨rng, ?_⟩, fun r => ⟨?_, ?_⟩,
      fun _ r => ⟨hle, hlt⟩, fun h => absurd h (by decide)⟩
    · rw [sampleTokenF32, if_neg hlen, if_pos hgreedy]
    · exact Int.natCast_nonneg _
    · obtain ⟨n, hn⟩ := Nat.exists_eq_succ_of_ne_zero hlen
      rw [hn]
      exact Int.ofNat_lt.mpr (greedyToken_lt (penalized row p history) n)
  | false =>
    have hV : ((List.range row.length).map fun i : Nat => (i : Int)).Nodup :=
      List.nodup_range.map fun a b h => Int.ofNat_inj.mp h
    have hVlen : ((List.range row.length).map fun i : Nat => (i : Int)).length = row.length := by simp
    have hVmem : ∀ t : Int, t ∈ (List.range row.length).map (fun i : Nat => (i : Int)) ↔ 0 ≤ t ∧ t < row.length := by
      intro t
      rw [List.mem_map]
      constructor
      · rintro ⟨i, hi, rfl⟩
        exact ⟨Int.natCast_nonneg i, by exact_mod_cast List.mem_range.mp hi⟩
      · rintro ⟨h0, hlt⟩
        exact ⟨t.toNat, List.mem_range.mpr (by omega), Int.toNat_of_nonneg h0⟩
    obtain ⟨S, N, token, hdraw, ⟨hnodup, hcount, hsub, hlargest⟩, hNS, hcut, hall, hdrawn⟩ :=
      drawToken_drawn hlib p (score row p history) hV (by rw [← List.length_pos_iff_ne_nil, hVlen]; omega)
    rw [hVlen] at hcount
    refine ⟨token, fun rng => ⟨(lib.uniform rng).2, ?_⟩, fun r => (hVmem _).mp (hsub _ (hNS _ (hdrawn.mem r))),
      fun h => absurd h (by decide), fun _ => ⟨S, N, ⟨hnodup, hcount, fun t ht => (hVmem t).mp (hsub t ht), ?_⟩, hcut, hall, hdrawn⟩⟩
    · rw [sampleTokenF32, if_neg hlen, if_neg (by rw [hgreedy]; decide)]
      dsimp only
      rw [scored_eq, hdraw]
    · intro t ht u h0 hlt hout
      exact score_le_iff.mp (hlargest t ht u ((hVmem u).mpr ⟨h0, hlt⟩) hout)

end

/-! ## Two tokens -/

/-- Positive and strictly increasing. -/
def hyperbola (x : ℚ) : ℚ := if x < 0 then 1 / (1 - x) else 1 + x

theorem hyperbola_pos (x : ℚ) : 0 < hyperbola x := by
  unfold hyperbola
  split
  · rename_i h
    exact one_div_pos.mpr (by linarith)
  · rename_i h
    linarith [not_lt.mp h]

theorem hyperbola_mono : StrictMono hyperbola := by
  intro x y h
  unfold hyperbola
  by_cases hy : y < 0
  · rw [if_pos (h.trans hy), if_pos hy]
    exact one_div_lt_one_div_of_lt (by linarith) (by linarith)
  · rw [if_neg hy]
    split
    · have hle : 1 / (1 - x) < 1 := (div_lt_one (by linarith)).mpr (by linarith)
      linarith [not_lt.mp hy]
    · linarith

def down (l : List (ℚ × Int)) : List (ℚ × Int) := l.mergeSort fun a b => decide (b.1 ≤ a.1)

theorem down_sorted (l : List (ℚ × Int)) : (down l).Pairwise fun a b => b.1 ≤ a.1 := by
  have htrans : ∀ a b c : ℚ × Int, decide (b.1 ≤ a.1) = true → decide (c.1 ≤ b.1) = true → decide (c.1 ≤ a.1) = true :=
    fun a b c hab hbc => decide_eq_true (le_trans (of_decide_eq_true hbc) (of_decide_eq_true hab))
  have htotal : ∀ a b : ℚ × Int, (decide (b.1 ≤ a.1) || decide (a.1 ≤ b.1)) = true := fun a b => by
    simpa using le_total b.1 a.1
  exact (List.pairwise_mergeSort htrans htotal l).imp of_decide_eq_true

/-- Every draw is `r`. -/
def drawing (r : ℚ) : SamplerLib ℚ Unit := ⟨hyperbola, fun _ => down, down, fun _ => (), fun _ => (r, ())⟩

theorem drawing_lawful (r : ℚ) : (drawing r).Lawful where
  exp_pos := hyperbola_pos
  nth_perm _ l := List.mergeSort_perm l _
  nth_split k l _ a ha b hb := by
    have hsorted := down_sorted l
    rw [← List.take_append_drop k (down l)] at hsorted
    exact (List.pairwise_append.mp hsorted).2.2 a ha b hb
  sort_perm l := List.mergeSort_perm l _
  sort_down := down_sorted

def twoTokens (topP : ℚ) : SampleParams ℚ := ⟨1, topP, 0, 1, 0, false⟩

theorem two_tokens_drawn :
    ∃ token : ℚ → Int, (∀ rng, ∃ rng', sampleTokenF32 (drawing 1) [0, -1] (twoTokens (1 / 2)) [] rng = .ok (token 1, rng')) ∧
      ∀ r, 0 ≤ token r ∧ token r < 2 := by
  obtain ⟨token, hrun, hmem, -⟩ := sample_token_drawn (drawing_lawful 1) (List.cons_ne_nil 0 [-1]) (twoTokens (1 / 2)) []
  exact ⟨token, hrun, hmem⟩

/-- Scores that are far apart. -/
def farApart : List ℚ := [0, -10000000]

/-- The share of token 1 is less than `1e-6 / 2`. -/
theorem farApart_prob {S : List Int} (h : S = [0, 1] ∨ S = [1, 0]) :
    prob hyperbola (score farApart (twoTokens (1 - 1 / 2000000)) []) S 0 = 10000001 / 10000002 ∧
      prob hyperbola (score farApart (twoTokens (1 - 1 / 2000000)) []) S 1 = 1 / 10000002 := by
  rcases h with rfl | rfl
  · exact ⟨by decide +kernel, by decide +kernel⟩
  · exact ⟨by decide +kernel, by decide +kernel⟩

theorem farApart_run :
    sampleTokenF32 (drawing (1 - 1 / 1000000000)) farApart (twoTokens (1 - 1 / 2000000)) [] () = .ok (1, ()) := by
  decide +kernel

/-- Two tokens, in either order. -/
theorem two_orders {l : List Int} (hlen : l.length = 2) (hnodup : l.Nodup) (hin : ∀ t ∈ l, 0 ≤ t ∧ t < 2) :
    l = [0, 1] ∨ l = [1, 0] := by
  obtain ⟨a, b, rfl⟩ := List.length_eq_two.mp hlen
  have ha := hin a (by simp)
  have hb := hin b (by simp)
  have hne : a ≠ b := by simpa using hnodup
  have hcases : (a = 0 ∧ b = 1) ∨ (a = 1 ∧ b = 0) := by omega
  rcases hcases with ⟨rfl, rfl⟩ | ⟨rfl, rfl⟩
  · exact .inl rfl
  · exact .inr rfl

/-- For `top_p = 0.9999995` no shortest prefix holds the second token, which a draw near 1 returns. -/
theorem high_top_p_keeps_all :
    (drawing (1 - 1 / 1000000000)).Lawful ∧ StrictMono hyperbola ∧
      sampleTokenF32 (drawing (1 - 1 / 1000000000)) farApart (twoTokens (1 - 1 / 2000000)) [] () = .ok (1, ()) ∧
      ∀ S N : List Int,
        Kept (penalized farApart (twoTokens (1 - 1 / 2000000)) []) 2 (keptCount (twoTokens (1 - 1 / 2000000)) 2) S →
        Nucleus (prob hyperbola (score farApart (twoTokens (1 - 1 / 2000000)) []) S) (1 - 1 / 2000000) S N → (1 : Int) ∉ N := by
  refine ⟨drawing_lawful _, hyperbola_mono, farApart_run, fun S N hS hN hmem => ?_⟩
  have hlen : S.length = 2 := hS.length
  obtain ⟨hzero, hone⟩ := farApart_prob (two_orders hlen hS.nodup hS.inside)
  obtain ⟨L, hperm, hsorted, -, n, rfl, hshort⟩ := hN
  have hL : L = [0, 1] := by
    rcases two_orders (hperm.length_eq.trans hlen) (hperm.nodup_iff.mpr hS.nodup)
      (fun t ht => hS.inside t (hperm.mem_iff.mp ht)) with h | rfl
    · exact h
    · have hle := List.rel_of_pairwise_cons hsorted (List.mem_singleton.mpr rfl)
      rw [hzero, hone] at hle
      norm_num at hle
  subst hL
  have hn : 1 < n := by
    by_contra h
    have htake : (1 : Int) ∈ ([0, 1] : List Int).take 1 := List.take_subset_take_left _ (not_lt.mp h) hmem
    simp at htake
  have hlt := hshort 1 hn
  rw [List.take_succ_cons, List.take_zero, mass_cons, mass_nil, hzero] at hlt
  norm_num at hlt

end Uaii.Runtime
