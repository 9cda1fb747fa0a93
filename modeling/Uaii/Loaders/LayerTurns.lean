/-
  Uaii.Loaders.LayerTurns — when the queries and the keys of a GGUF file's layer are turned
  alike.

  The two RoPE nodes of a layer have the same attributes, so their calls agree under the
  sequence lengths that the scaling treats alike. Keys that are put together are turned by
  a node without the scaling: there the queries have to be turned on the width that the
  metadata gives, without a norm after the keys, under a scaling that changes nothing.
-/

import Uaii.Loaders.GgufTurns

namespace Uaii.Loaders

open Uaii.Ir Uaii.Kernels
open Uaii.Runtime (toI32)

variable {R K : Type}

/-! ## What a file says of a layer -/

namespace GgufHeader

variable (file : GgufHeader) (pfx : String)

/-- `is_mla`, by the tensors that are there. -/
def Latent : Prop :=
  (file.has (pfx ++ "attn_kv_a_mqa.weight") ∨ file.has (pfx ++ "attn_kv_a.weight")) ∧ file.has (pfx ++ "attn_k_b.weight") ∧
    file.has (pfx ++ "attn_v_b.weight")

instance : Decidable (file.Latent pfx) := inferInstanceAs (Decidable (_ ∧ _ ∧ _))

/-- `layer_q_dim` of latent attention. -/
def latentQDim : Int :=
  weightOutDim (file.findTensor (pfx ++
    if file.has (pfx ++ "attn_q_a.weight") ∧ file.has (pfx ++ "attn_q_b.weight") then "attn_q_b.weight" else "attn_q.weight"))

/-- The keys are put together: queries of latent attention are wider than its keys. -/
def Assembled : Prop := file.Latent pfx ∧ file.latentQDim pfx ≠ weightOutDim (file.findTensor (pfx ++ "attn_k_b.weight"))

instance : Decidable (file.Assembled pfx) := inferInstanceAs (Decidable (_ ∧ _))

/-- The head size of a layer whose keys are not put together. -/
def layerRopeHd : Int :=
  if file.Latent pfx then
    if 0 < file.qkNopeHeadDim ∧ 0 < file.qkRopeHeadDim then file.qkNopeHeadDim + file.qkRopeHeadDim
    else if 0 < file.nHeads ∧ (file.latentQDim pfx).tmod file.nHeads = 0 then (file.latentQDim pfx).tdiv file.nHeads
    else if 0 < file.mlaRopeHeadDim file.width then file.mlaRopeHeadDim file.width
    else file.headDim file.width
  else file.headDim file.width

/-- The heads of the queries and the keys are turned on the same channels. -/
def SameChannels : Prop :=
  if file.Assembled pfx then 0 < file.qkRopeHeadDim ∧ ¬ file.has (pfx ++ "attn_k_norm.weight") else 0 < file.layerRopeHd pfx

instance : Decidable (file.SameChannels pfx) := inferInstanceAs (Decidable (if file.Assembled pfx then
    0 < file.qkRopeHeadDim ∧ ¬ file.has (pfx ++ "attn_k_norm.weight") else 0 < file.layerRopeHd pfx))

/-- The scaling that the metadata describes. -/
def ropeScaling [Field R] [LinearOrder R] [Field K] (floats : KvFloats R) (num : R → K) : RopeParams K :=
  ropeParams num (file.ropeScaleAttrs floats)

/-- What has to hold of the sequence length `seq` of a run, in a call with so many tokens in its prompt. -/
def ScalesAlike [Field R] [LinearOrder R] [Field K] [LinearOrder K] (floats : KvFloats R) (num : R → K) (seq prompt : K) : Prop :=
  if file.Assembled pfx then (file.ropeScaling floats num).Unscaled seq else (file.ropeScaling floats num).SameScale seq prompt

end GgufHeader

/-! ## The arguments of the calls -/

section Params

variable [Field R] [LinearOrder R] [Field K] (num : R → K) (m : GgufImport R) (pfx : String) (w : LayerWeights)

/-- The arguments of a call are those of its scaling, apart from those that every call has. -/
theorem ropeParams_ropeAttrs (ropeHd : Int) : ropeParams num (m.ropeAttrs pfx w ropeHd) =
    { m.file.ropeScaling m.floats num with
      theta := num (m.file.ropeTheta m.floats)
      headDim := ropeHd
      mode := toI32 m.file.ropeMode
      rotaryDim := if m.isMla pfx w ∧ 0 < m.file.qkRopeHeadDim ∧ m.file.qkRopeHeadDim < ropeHd then m.file.qkRopeHeadDim else 0 } := by
  unfold GgufHeader.ropeScaling GgufHeader.ropeScaleAttrs GgufImport.ropeAttrs ropeParams
  by_cases hscale : m.file.ropeScaleType ∈ ["", "none", "default"] <;>
    by_cases hrot : m.isMla pfx w ∧ 0 < m.file.qkRopeHeadDim ∧ m.file.qkRopeHeadDim < ropeHd <;>
    simp [GgufHeader.ropeScaleAttrs, hscale, hrot, attrInt, attrFloat, attrCstr, attrFloatArray, factorsOf]

omit [LinearOrder R] in
theorem ropeParams_shared (rope : Int) : ropeParams num (m.sharedRopeAttrs rope) =
    { ropeParams num ([] : List (Attribute R)) with
      theta := num (m.file.ropeTheta m.floats)
      headDim := rope
      mode := toI32 m.file.ropeMode } := by
  simp [GgufImport.sharedRopeAttrs, ropeParams, attrInt, attrFloat, attrCstr, attrFloatArray, factorsOf]

theorem ropeScaling_align (floats : KvFloats R) (file : GgufHeader) : (file.ropeScaling floats num).rotaryAlign = 1 := by
  unfold GgufHeader.ropeScaling GgufHeader.ropeScaleAttrs ropeParams
  by_cases hscale : file.ropeScaleType ∈ ["", "none", "default"] <;> simp [hscale, attrInt, toI32]

end Params

/-! ## The layers -/

section Layer

variable [Field K] [LinearOrder K] {math : MathLib K} {num : R → K} {g : Graph R} {n : Node R}

/-- The queries of an Attention node in a run of sequence length `now`, and its keys in one of
    `past`, are turned on the same channels of a head, as fast and to the same length: the
    rotary part of their score depends on the positions through their difference only. -/
def TurnedAlike (math : MathLib K) (num : R → K) (g : Graph R) (n : Node R) (now past : K) : Prop :=
  ∃ q k v first attributes attributes', n.inputs = [q, k, v] ∧ Turned g q 0 attributes ∧ Turned g k first attributes' ∧
    ∀ qDim kDim l l', ropeLayout (ropeParams num attributes) qDim = .ok l → ropeLayout (ropeParams num attributes') kDim = .ok l' →
      (l.chunk : Int) = first + l'.chunk ∧
        (l.turn math (ropeParams num attributes) now 0).Agrees (l'.turn math (ropeParams num attributes') past first) ∧
        ∀ (s t d : K) (x y : Nat → K),
          Turn.score math (l.turn math (ropeParams num attributes) now 0) (l'.turn math (ropeParams num attributes') past first) (s + d) (t + d) x y =
            Turn.score math (l.turn math (ropeParams num attributes) now 0) (l'.turn math (ropeParams num attributes') past first) s t x y

/-- One set of attributes. -/
theorem same_attributes (math : MathLib K) {attributes : List (Attribute R)} {scaling : RopeParams K} {theta : K} {headDim mode rotaryDim : Int}
    (hparams : ropeParams num attributes = { scaling with theta := theta, headDim := headDim, mode := mode, rotaryDim := rotaryDim })
    (hpos : 0 < headDim) {now past prompt : K} (hnow : scaling.SameScale now prompt) (hpast : scaling.SameScale past prompt)
    {qDim kDim : Int} {l l' : RopeLayout} (hl : ropeLayout (ropeParams num attributes) qDim = .ok l)
    (hl' : ropeLayout (ropeParams num attributes) kDim = .ok l') :
    (l.chunk : Int) = 0 + l'.chunk ∧
      (l.turn math (ropeParams num attributes) now 0).Agrees (l'.turn math (ropeParams num attributes) past 0) := by
  have hhead : (ropeParams num attributes).headDim = headDim := by rw [hparams]
  obtain ⟨-, hc, -⟩ := ropeLayout_ok hl
  obtain ⟨-, hc', -⟩ := ropeLayout_ok hl'
  rw [ropeChunk, hhead, if_pos hpos] at hc hc'
  have hchunk : l.chunk = l'.chunk := by omega
  have hscale : ∀ seq, scaling.SameScale seq prompt → (ropeParams num attributes).SameScale seq prompt := by
    intro seq hseq
    rw [hparams]
    exact hseq
  obtain ⟨hdvd, rfl⟩ := ropeLayout_same hl hl' hchunk
  refine ⟨by omega, rfl, rfl, rfl, fun i _ => ?_, rfl⟩
  show ropeScaledInvFreq math (ropeParams num attributes) i l.half now = ropeScaledInvFreq math (ropeParams num attributes) i l.half past
  rw [(hscale now hnow).freq, (hscale past hpast).freq]

/-- Queries of which the last channels are turned, and a head's part that is turned before. -/
theorem shared_part {attributes attributes' : List (Attribute R)} {scaling : RopeParams K} {theta : K} {nope rope mode : Int}
    (hparams : ropeParams num attributes = { scaling with theta := theta, headDim := nope + rope, mode := mode, rotaryDim := rope })
    (hparams' : ropeParams num attributes' =
      { ropeParams num ([] : List (Attribute R)) with theta := theta, headDim := rope, mode := mode })
    (halign : scaling.rotaryAlign = 1) (hnope : 0 < nope) (hrope : 0 < rope) {now past : K} (hnow : scaling.Unscaled now)
    {qDim kDim : Int} {l l' : RopeLayout} (hl : ropeLayout (ropeParams num attributes) qDim = .ok l)
    (hl' : ropeLayout (ropeParams num attributes') kDim = .ok l') :
    (l.chunk : Int) = nope + l'.chunk ∧
      (l.turn math (ropeParams num attributes) now 0).Agrees (l'.turn math (ropeParams num attributes') past nope) := by
  have hunscaled : (ropeParams num attributes).Unscaled now := by
    rw [hparams]
    exact hnow
  have hplain : (ropeParams num attributes').Unscaled past := by
    rw [hparams']
    exact .inl (by simp [RopeParams.kind, ropeParams, attrCstr])
  obtain ⟨-, hc, hrot, hleading, hneox⟩ := ropeLayout_ok hl
  obtain ⟨-, hc', hrot', hleading', hneox'⟩ := ropeLayout_ok hl'
  have hchunk : (l.chunk : Int) = nope + rope := by
    rw [hc, hparams]
    exact if_pos (show 0 < nope + rope by omega)
  have hchunk' : (l'.chunk : Int) = rope := by
    rw [hc', hparams']
    exact if_pos hrope
  have hturned : (l.rot : Int) = rope := by
    rw [hrot, hparams]
    exact if_pos hrope
  have hturned' : (l'.rot : Int) = rope := by
    rw [hrot', hparams']
    exact (if_neg (lt_irrefl 0)).trans (if_pos hrope)
  have hoff : l.rotOff = l.chunk - l.rot := by
    rw [hparams] at hleading
    have hlead : l.leading = false := by
      rw [hleading]
      exact decide_eq_false fun hyes => absurd (halign.symm.trans hyes.1) (by decide)
    rw [RopeLayout.rotOff, hlead]
    rfl
  have hoff' : l'.rotOff = 0 := by
    rw [RopeLayout.rotOff]
    split
    · rfl
    · omega
  have hhalf : l.half = l'.half := by
    have hsame : l.rot = l'.rot := by omega
    exact Nat.eq_of_mul_eq_mul_left (by decide) hsame
  refine ⟨by omega, ?_, hhalf, ?_, fun i _ => ?_, ?_⟩
  · show (0 : Int) + l.rotOff = nope + l'.rotOff
    omega
  · show l.neox = l'.neox
    rw [hneox, hneox', hparams, hparams']
  · show ropeScaledInvFreq math (ropeParams num attributes) i l.half now = ropeScaledInvFreq math (ropeParams num attributes') i l'.half past
    rw [hunscaled.freq, hplain.freq, hhalf, hparams, hparams']
    rfl
  · show yarnMscale math (ropeParams num attributes) = yarnMscale math (ropeParams num attributes')
    rw [hunscaled.magnitude, hplain.magnitude]

variable {m : GgufImport R} {pfx : String} {w : LayerWeights}

/-- What the loader asks of the weights, it asks of the tensors. -/
theorem isMla_iff (hid : ∀ rest ∈ GgufImport.firstNames ++ GgufImport.lastNames, w.id rest ≠ 0 ↔ m.file.has (pfx ++ rest)) :
    m.isMla pfx w ↔ m.file.Latent pfx := by
  unfold GgufImport.isMla GgufImport.hasKvA GgufHeader.Latent
  rw [hid "attn_k_b.weight" (by decide), hid "attn_v_b.weight" (by decide), Bool.or_eq_true]

theorem mlaQDim_eq (hid : ∀ rest ∈ GgufImport.firstNames ++ GgufImport.lastNames, w.id rest ≠ 0 ↔ m.file.has (pfx ++ rest)) :
    m.mlaQDim pfx w = m.file.latentQDim pfx := by
  have hlora : w.qLora ↔ m.file.has (pfx ++ "attn_q_a.weight") ∧ m.file.has (pfx ++ "attn_q_b.weight") := by
    unfold LayerWeights.qLora
    rw [hid "attn_q_a.weight" (by decide), hid "attn_q_b.weight" (by decide)]
  unfold GgufImport.mlaQDim GgufImport.info GgufHeader.latentQDim
  simp only [hlora]

theorem assembles_iff (hid : ∀ rest ∈ GgufImport.firstNames ++ GgufImport.lastNames, w.id rest ≠ 0 ↔ m.file.has (pfx ++ rest)) :
    m.Assembles pfx w ↔ m.file.Assembled pfx := by
  unfold GgufImport.Assembles GgufHeader.Assembled
  rw [isMla_iff hid, mlaQDim_eq hid]
  rfl

theorem plainRopeHd_eq (hdim : m.dim = m.file.width) (hid : ∀ rest ∈ GgufImport.firstNames ++ GgufImport.lastNames, w.id rest ≠ 0 ↔ m.file.has (pfx ++ rest)) :
    m.plainRopeHd pfx w = m.file.layerRopeHd pfx := by
  unfold GgufImport.plainRopeHd GgufImport.mlaRopeHd GgufHeader.layerRopeHd
  simp only [isMla_iff hid, mlaQDim_eq hid, hdim]

variable [Field R] [LinearOrder R]

/-- Every Attention node of a layer whose channels match, in two runs that are scaled alike. -/
theorem turned_alike (hcircle : Rotary.Circle math.cos math.sin) (hdim : m.dim = m.file.width)
    (hid : ∀ rest ∈ GgufImport.firstNames ++ GgufImport.lastNames, w.id rest ≠ 0 ↔ m.file.has (pfx ++ rest))
    (hpair : m.RopePair pfx w g n) (hchannels : m.file.SameChannels pfx) {now past prompt : K}
    (hnow : m.file.ScalesAlike pfx m.floats num now prompt) (hpast : m.file.ScalesAlike pfx m.floats num past prompt) :
    TurnedAlike math num g n now past := by
  obtain ⟨q, k, v, hin, hor⟩ := hpair
  unfold GgufHeader.SameChannels at hchannels
  unfold GgufHeader.ScalesAlike at hnow hpast
  rcases hor with ⟨hno, hq, hk⟩ | ⟨hyes, nope, rope, hparts, hq, hk⟩
  · rw [assembles_iff hid] at hno
    rw [if_neg hno] at hchannels hnow hpast
    rw [plainRopeHd_eq hdim hid] at hq hk
    refine ⟨q, k, v, 0, _, _, hin, hq, hk, fun qDim kDim l l' hl hl' => ?_⟩
    have hparams := ropeParams_ropeAttrs num m pfx w (m.file.layerRopeHd pfx)
    obtain ⟨hchunk, hagrees⟩ := same_attributes math hparams hchannels hnow hpast hl hl'
    exact ⟨hchunk, hagrees, Turn.score_shift hcircle hagrees⟩
  · have hmla := hyes.1
    rw [assembles_iff hid] at hyes
    rw [if_pos hyes] at hchannels hnow hpast
    have hnorm : w.id "attn_k_norm.weight" = 0 := by
      by_contra hne
      exact hchannels.2 ((hid "attn_k_norm.weight" (by decide)).mp hne)
    have hrope := hparts.rope_given hchannels.1
    have hparams := ropeParams_ropeAttrs num m pfx w (nope + rope)
    have hrotary : m.isMla pfx w ∧ 0 < m.file.qkRopeHeadDim ∧ m.file.qkRopeHeadDim < nope + rope := by
      refine ⟨hmla, hchannels.1, ?_⟩
      have hpos := hparts.nope_pos
      omega
    rw [if_pos hrotary, ← hrope] at hparams
    refine ⟨q, k, v, nope, _, _, hin, hq, hk hnorm, fun qDim kDim l l' hl hl' => ?_⟩
    obtain ⟨hchunk, hagrees⟩ := shared_part hparams (ropeParams_shared num _ rope) (ropeScaling_align num m.floats m.file) hparts.nope_pos
      hparts.rope_pos hnow hl hl'
    exact ⟨hchunk, hagrees, Turn.score_shift hcircle hagrees⟩

end Layer

/-! ## Keys that leave the scaling out -/

section Apart

theorem ropeLayout_exists {p : RopeParams K} {d head rotary : Int} (hhead : p.headDim = head) (hrot : ropeRot p d = rotary)
    (hpos : 0 < rotary ∧ rotary ≤ head) (hhalves : 2 ∣ head ∧ 2 ∣ rotary) (hdvd : head ∣ d) : ∃ l, ropeLayout p d = .ok l := by
  have hchunk : ropeChunk p d = head := by
    rw [ropeChunk, hhead]
    exact if_pos (by omega)
  have heven : d.tmod 2 = 0 := Int.tmod_eq_zero_of_dvd (hhalves.1.trans hdvd)
  have hwhole : d.tmod head = 0 := Int.tmod_eq_zero_of_dvd hdvd
  have hhalf := Int.tmod_eq_zero_of_dvd hhalves.1
  have hhalf' := Int.tmod_eq_zero_of_dvd hhalves.2
  unfold ropeLayout
  rw [if_neg (not_not.mpr heven), dif_neg (by rw [hchunk]; omega), dif_neg (by rw [hchunk, hrot]; omega)]
  exact ⟨_, rfl⟩

variable [Field R] [LinearOrder R] {m : GgufImport R} {pfx : String} {w : LayerWeights} {num : R → ℝ}
  {g : Graph R} {n : Node R}

/-- The first pair of the keys turns as if there were no factor. -/
theorem linear_apart (hnd : (g.nodes.flatMap (·.outputs)).Nodup)
    (hid : ∀ rest ∈ GgufImport.firstNames ++ GgufImport.lastNames, w.id rest ≠ 0 ↔ m.file.has (pfx ++ rest))
    (hpair : m.RopePair pfx w g n) (hyes : m.file.Assembled pfx) (hnorm : ¬ m.file.has (pfx ++ "attn_k_norm.weight"))
    (hwidths : 0 < m.file.qkNopeHeadDim ∧ 0 < m.file.qkRopeHeadDim) (heven : 2 ∣ m.file.qkNopeHeadDim ∧ 2 ∣ m.file.qkRopeHeadDim)
    (hkind : (m.file.ropeScaling m.floats num).kind = "linear") (hfactor : orElse (m.file.ropeScaling m.floats num).scaleFactor 1 ≠ 1)
    (now past : ℝ) : ¬ TurnedAlike realMath num g n now past := by
  rintro ⟨q, k, v, first, attributes, attributes', hin, hq, hk, hall⟩
  obtain ⟨q', k', v', hin', hor⟩ := hpair
  obtain ⟨rfl, rfl, rfl⟩ : q = q' ∧ k = k' ∧ v = v' := by simpa using hin.symm.trans hin'
  rw [assembles_iff hid] at hor
  rcases hor with ⟨hno, -⟩ | ⟨-, nope, rope, hparts, hq', hk'⟩
  · exact hno hyes
  rw [← hparts.nope_given hwidths.1, ← hparts.rope_given hwidths.2] at heven
  have h0 : w.id "attn_k_norm.weight" = 0 := by
    by_contra hne
    exact hnorm ((hid "attn_k_norm.weight" (by decide)).mp hne)
  obtain ⟨-, rfl⟩ := Turned.unique hnd hq' hq
  obtain ⟨rfl, rfl⟩ := Turned.unique hnd (hk' h0) hk
  have hnope := hparts.nope_pos
  have hrope := hparts.rope_pos
  have hmla : m.isMla pfx w ∧ 0 < m.file.qkRopeHeadDim ∧ m.file.qkRopeHeadDim < nope + rope :=
    ⟨(isMla_iff hid).mpr hyes.1, hwidths.2, by rw [← hparts.rope_given hwidths.2]; omega⟩
  have hparams := ropeParams_ropeAttrs num m pfx w (nope + rope)
  rw [if_pos hmla, ← hparts.rope_given hwidths.2] at hparams
  have hparams' := ropeParams_shared num m rope
  generalize m.file.ropeScaling m.floats num = scaling at hparams hkind hfactor
  generalize ropeParams num (m.ropeAttrs pfx w (nope + rope)) = p at hparams hall
  generalize ropeParams num (m.sharedRopeAttrs rope) = p' at hparams' hall
  have hhead : p.headDim = nope + rope := by rw [hparams]
  have hturned : ropeRot p (nope + rope) = rope := by
    rw [hparams]
    exact if_pos hrope
  obtain ⟨l, hl⟩ : ∃ l, ropeLayout p (nope + rope) = .ok l :=
    ropeLayout_exists hhead hturned (by omega) ⟨by omega, heven.2⟩ (dvd_refl _)
  obtain ⟨l', hl'⟩ : ∃ l, ropeLayout p' rope = .ok l := by
    have hplain : p'.headDim = rope := by rw [hparams']
    refine ropeLayout_exists hplain (?_ : ropeRot p' rope = rope) (by omega) ⟨heven.2, heven.2⟩ (dvd_refl _)
    rw [hparams']
    exact (if_neg (lt_irrefl 0)).trans (if_pos hrope)
  have hfreq := (hall (nope + rope) rope l l' hl hl').2.1.freq 0 l.half_pos
  have hplain : p'.Unscaled past := by
    rw [hparams']
    exact .inl (by simp [RopeParams.kind, ropeParams, attrCstr])
  have hlinear : p.kind = "linear" := by
    rw [hparams]
    exact hkind
  have hfactors : p.scaleFactor = scaling.scaleFactor := by rw [hparams]
  have hquery : (l.turn realMath p now 0).freq 0 = 1 / orElse scaling.scaleFactor 1 := by
    refine (RopeParams.linear_freq hlinear ..).trans ?_
    rw [Nat.cast_zero, RopeParams.plainFreq_first _ (by exact_mod_cast l.half_pos), hfactors]
  have hkey : (l'.turn realMath p' past nope).freq 0 = 1 := by
    refine (hplain.freq ..).trans ?_
    rw [Nat.cast_zero, RopeParams.plainFreq_first _ (by exact_mod_cast l'.half_pos)]
  rw [hquery, hkey] at hfreq
  exact hfactor (by simpa using hfreq)

end Apart

end Uaii.Loaders
