/-
  Uaii.Tokenizers.Metaspace — texts through a tokenizer with `set_metaspace`
  (`libs/uaii-tokenizers/src/bpe_tokenizer.cpp`).

  `encode` puts the replacement in front of a text and in the place of its spaces, and
  writes what results in byte symbols, as one piece. `decode` undoes the byte symbols only.

  Proved: a text comes back when it is empty, or when the marked text is a vocabulary entry
  whose characters stand for the bytes of the text (`metaspace_round_trip_iff`); with a
  replacement that stands for no byte, such as `▁`, that is a printable ASCII text whose
  marked form is an entry. Otherwise the marks stay (`marks_stay`).
-/

import Uaii.Tokenizers.HfTokenizer

namespace Uaii.Tokenizers

/-- A byte below `0x80` is a character of its own. -/
theorem utf8Encode_byte (cp : Nat) : ∀ c ∈ utf8Encode cp, cp = c.toNat ∨ 128 ≤ c.toNat := by
  have hdiv : ∀ k, cp >>> k = cp / 2 ^ k := Nat.shiftRight_eq_div_pow cp
  have hmod : ∀ n : Nat, n % 64 < 64 := fun n => Nat.mod_lt n (by omega)
  have high : ∀ n, n < 256 → 128 ≤ n → cp = (UInt8.ofNat n).toNat ∨ 128 ≤ (UInt8.ofNat n).toNat := by
    intro n hn hle
    rw [UInt8.toNat_ofNat_of_lt' hn]
    exact .inr hle
  have hnil : ∀ c ∈ ([] : Bytes), cp = c.toNat ∨ 128 ≤ c.toNat := by simp
  unfold utf8Encode
  simp only [and_1F, and_3F, and_0F, and_07, hdiv, or_80 (hmod _), or_C0 (Nat.mod_lt _ (show 0 < 32 by omega)),
    or_E0 (Nat.mod_lt _ (show 0 < 16 by omega)), or_F0 (Nat.mod_lt _ (show 0 < 8 by omega))]
  repeat' split
  · refine List.forall_mem_cons.mpr ⟨.inl ?_, hnil⟩
    rw [UInt8.toNat_ofNat_of_lt' (show cp < 256 by omega)]
  all_goals
    refine List.forall_mem_cons.mpr ⟨high _ (by omega) (by omega), ?_⟩
    refine List.forall_mem_cons.mpr ⟨high _ (by omega) (by omega), ?_⟩
  · exact hnil
  all_goals refine List.forall_mem_cons.mpr ⟨high _ (by omega) (by omega), ?_⟩
  · exact hnil
  · exact List.forall_mem_cons.mpr ⟨high _ (by omega) (by omega), hnil⟩

namespace BpeTokenizer

variable {T : BpeTokenizer}

/-- The settings for a Metaspace pre-tokenizer, with nothing registered and nothing in front. -/
structure MetaspaceEncoding (T : BpeTokenizer) : Prop where
  pretokenize : T.pretokenize = false
  bos : T.addBos = false
  specials : T.specialTokens = []
  nonempty : T.metaspace ≠ []
  valid : ValidUtf8 T.metaspace

theorem encode_metaspace (h : T.MetaspaceEncoding) {t : Bytes} (ht : t ≠ []) : T.encode t = T.bpeEncodePiece (T.marked t) := by
  have hat : ∀ s, T.specialAt s = none := fun s => by rw [specialAt, h.specials]; rfl
  have hfrom := encodeFrom_unhit (marked_ne_nil (T := T) ht) (Nat.le_refl _) fun s _ _ => hat s
  rw [encodeChunk, if_neg (by simp [h.pretokenize])] at hfrom
  rw [← hfrom]
  simp [encode, h.pretokenize, h.bos, marked, h.nonempty]

/-- The characters of a marked text: those of the mark, then those of the text with the mark for each space. -/
theorem marked_chars (h : T.MetaspaceEncoding) {t : Bytes} (ht : ValidUtf8 t) (hne : t ≠ []) :
    ∃ cps : List Nat, (∀ cp ∈ cps, cp < 2 ^ 21) ∧ t = utf8FromCps cps ∧
      T.marked t = T.metaspace ++ cps.flatMap fun cp => if cp = 0x20 then T.metaspace else utf8Encode cp := by
  obtain ⟨cps, hlt, ht, -⟩ := ht.cps
  refine ⟨cps, hlt, ht, ?_⟩
  rw [marked, if_neg h.nonempty, if_neg hne, ht, utf8FromCps, List.flatMap_assoc]
  congr 1
  refine List.flatMap_congr fun cp _ => ?_
  by_cases hcp : cp = 0x20
  · subst hcp
    rw [if_pos rfl, utf8Encode_ascii (by omega)]
    simp
  · have hself : ∀ c ∈ utf8Encode cp, (if c = 0x20 then T.metaspace else [c]) = [c] := by
      intro c hc
      rw [if_neg]
      rintro rfl
      apply (utf8Encode_byte cp _ hc).elim
      · exact hcp
      · intro hle
        exact absurd hle (by decide)
    rw [if_neg hcp, List.flatMap_congr hself]
    exact List.flatMap_singleton' _

theorem marked_whole (h : T.MetaspaceEncoding) {t : Bytes} (ht : ValidUtf8 t) (hne : t ≠ []) : Whole (T.marked t) := by
  obtain ⟨ms, hms, heq, -⟩ := h.valid.cps
  have hm : Whole T.metaspace := ⟨ms, hms, heq⟩
  obtain ⟨cps, hlt, -, hmark⟩ := marked_chars h ht hne
  rw [hmark, List.flatMap_def]
  refine hm.append (byteDecode_flatten fun s hs => ?_).1
  obtain ⟨cp, hcp, rfl⟩ := List.mem_map.mp hs
  split
  · exact hm
  · exact ⟨[cp], by simpa using hlt cp hcp, by simp [utf8FromCps]⟩

/-- Marks that stand for no byte leave no trace, and neither do the spaces they stand for. -/
theorem byteDecode_marked (h : T.MetaspaceEncoding) (hmark : byteDecode T.metaspace = []) {t : Bytes} (ht : ValidUtf8 t)
    (hne : t ≠ []) : byteDecode (T.marked t) = byteDecode t := by
  obtain ⟨ms, hms, heq, -⟩ := h.valid.cps
  have hm : Whole T.metaspace := ⟨ms, hms, heq⟩
  obtain ⟨cps, hlt, rfl, hchars⟩ := marked_chars h ht hne
  have hpart : ∀ cp ∈ cps, Whole (if cp = 0x20 then T.metaspace else utf8Encode cp) ∧
      byteDecode (if cp = 0x20 then T.metaspace else utf8Encode cp) = (byteDecoder cp).toList := by
    intro cp hcp
    by_cases hsp : cp = 0x20
    · subst hsp
      rw [if_pos rfl, hmark, byteDecoder_ascii (by omega), if_neg (by omega)]
      exact ⟨hm, rfl⟩
    · have hchar : ∀ c ∈ [cp], c < 2 ^ 21 := by simpa using hlt cp hcp
      have hone := byteDecode_cps hchar
      rw [if_neg hsp]
      refine ⟨⟨[cp], by simpa using hlt cp hcp, by simp [utf8FromCps]⟩, ?_⟩
      rw [utf8FromCps, List.flatMap_singleton] at hone
      rw [hone]
      cases hd : byteDecoder cp <;> simp [hd]
  have hwhole : ∀ s ∈ cps.map fun cp => if cp = 0x20 then T.metaspace else utf8Encode cp, Whole s := by
    intro s hs
    obtain ⟨cp, hcp, rfl⟩ := List.mem_map.mp hs
    exact (hpart cp hcp).1
  have hflat := byteDecode_flatten hwhole
  rw [hchars, List.flatMap_def, byteDecode_append hm hflat.1, hmark, hflat.2, byteDecode_cps hlt, List.nil_append,
    List.flatMap_map, List.flatMap_congr fun cp hcp => (hpart cp hcp).2]
  clear hlt hne ht hchars hpart hwhole hflat
  induction cps with
  | nil => rfl
  | cons cp cps ih =>
    rw [List.flatMap_cons, ih, List.filterMap_cons]
    cases byteDecoder cp <;> rfl

/-- What comes back: an entry is read as byte symbols, anything else keeps its marks. -/
theorem decode_encode_marked (hv : T.ByteLevel) (h : T.MetaspaceEncoding) {t : Bytes} (ht : ValidUtf8 t) (hne : t ≠ []) :
    T.decode (T.encode t) = if T.InVocab (T.marked t) then byteDecode (T.marked t) else T.marked t := by
  have htoks : ∀ tok ∈ T.tokensOf (T.marked t), T.InVocab tok ∧ Whole tok := by
    intro tok htok
    unfold tokensOf at htok
    by_cases hin : T.InVocab (T.marked t)
    · rw [if_pos hin, List.mem_singleton] at htok
      exact htok ▸ ⟨hin, marked_whole h ht hne⟩
    · rw [if_neg hin] at htok
      exact ⟨segments_inVocab hv _ tok htok, segments_whole _ tok htok⟩
  rw [encode_metaspace h hne, bpeEncodePiece_eq, decode, decodeFrom_tokens hv.consistent h.specials _ [] htoks Whole.nil]
  refine (List.nil_append _).trans ?_
  unfold tokensOf
  by_cases hin : T.InVocab (T.marked t)
  · rw [if_pos hin, if_pos hin, List.flatMap_singleton]
  · rw [if_neg hin, if_neg hin, byteDecode_segments]

theorem decode_encode_nil (h : T.MetaspaceEncoding) : T.decode (T.encode []) = [] := by
  simp [encode, encodeFrom, h.bos, h.pretokenize, decode, decodeFrom, byteDecode, codepoints, codepointsFrom]

/-- A text comes back exactly when it is empty, or its marked form is one entry that stands for it. -/
theorem metaspace_round_trip_iff (hv : T.ByteLevel) (hm : T.MetaspaceEncoding) {t : Bytes} (ht : ValidUtf8 t) :
    (T.decode (T.encode t) = t ↔ t = [] ∨ (T.InVocab (T.marked t) ∧ byteDecode (T.marked t) = t)) ∧
      (byteDecode T.metaspace = [] →
        (T.decode (T.encode t) = t ↔ t = [] ∨ (T.InVocab (T.metaspace ++ t) ∧ Plain t))) := by
  have hiff : T.decode (T.encode t) = t ↔ t = [] ∨ (T.InVocab (T.marked t) ∧ byteDecode (T.marked t) = t) := by
    by_cases hne : t = []
    · subst hne
      exact iff_of_true (decode_encode_nil hm) (.inl rfl)
    · rw [decode_encode_marked hv hm ht hne]
      by_cases hin : T.InVocab (T.marked t)
      · simp [hin, hne]
      · have hlen := marked_length hm.nonempty hne
        have hlong : T.marked t ≠ t := fun h => by rw [h] at hlen; omega
        simp [hin, hne, hlong]
  refine ⟨hiff, fun hmark => hiff.trans ?_⟩
  by_cases hne : t = []
  · simp [hne]
  rw [byteDecode_marked hm hmark ht hne]
  have hplain : byteDecode t = t ↔ Plain t := by
    obtain ⟨cps, hlt, hcps, -⟩ := ht.cps
    exact ⟨fun h => (byteDecode_length ⟨cps, hlt, hcps⟩).2 (by rw [h]), byteDecode_plain⟩
  rw [hplain]
  refine or_congr_right (and_congr_left fun hp => ?_)
  have hself : T.marked t = T.metaspace ++ t := by
    have hbyte : ∀ c ∈ t, (if c = 0x20 then T.metaspace else [c]) = [c] := by
      intro c hc
      rw [if_neg]
      rintro rfl
      exact absurd (hp _ hc).1 (by decide)
    rw [marked, if_neg hm.nonempty, if_neg hne, List.flatMap_congr hbyte]
    exact congrArg (T.metaspace ++ ·) (List.flatMap_singleton' t)
  rw [hself]

/-- `set_byte_level_pretokenize(false)` and `set_metaspace(▁)`. -/
def withMetaspace (T : BpeTokenizer) : BpeTokenizer :=
  { T with
    pretokenize := false
    metaspace := defaultMetaspace }

theorem withMetaspace_byteLevel (h : T.ByteLevel) : T.withMetaspace.ByteLevel :=
  ⟨⟨h.consistent.ids, h.consistent.controls⟩, h.bytes, h.merges⟩

theorem withMetaspace_encoding (h : T.BareEncoding) : T.withMetaspace.MetaspaceEncoding :=
  ⟨rfl, h.bos, h.specials, by simp [withMetaspace, defaultMetaspace], ['▁'], show defaultMetaspace = _ by decide⟩

/-- `▁` stands for no byte. -/
theorem byteDecode_default : byteDecode defaultMetaspace = [] := by
  have hcps : defaultMetaspace = utf8FromCps [0x2581] := by decide
  rw [hcps, byteDecode_cps (by simp)]
  simp [byteDecoder_high]

/-- The byte symbols and some tokens more. -/
def markedVocab (extra : List Bytes) : BpeTokenizer := (ofTokens (byteTokens ++ extra)).withMetaspace

theorem markedVocab_byteLevel (extra : List Bytes) : (markedVocab extra).ByteLevel := by
  have hmem : ∀ b, byteSymbol b ∈ byteTokens ++ extra := fun b => List.mem_append_left _ (byteSymbol_mem b)
  have hc := loadFromVocabMerges_consistent (ofTokens_loaded (List.ne_nil_of_mem (hmem 0)))
  exact withMetaspace_byteLevel ⟨hc, fun b => ofTokens_inVocab (hmem b), fun m hm => by cases hm⟩

theorem markedVocab_encoding {extra : List Bytes} (h : ∀ tok ∈ extra, tok.length < 5) : (markedVocab extra).MetaspaceEncoding := by
  refine withMetaspace_encoding (ofTokens_bare fun tok htok => ?_)
  exact (List.mem_append.mp htok).elim (byteTokens_short tok) (h tok)

theorem withMetaspace_inVocab {tok : Bytes} (h : T.InVocab tok) : T.withMetaspace.InVocab tok := h

theorem ofTokens_mem {tokens : List Bytes} {tok : Bytes} (h : (ofTokens tokens).InVocab tok) : tok ∈ tokens := by
  obtain ⟨id, hid⟩ := Option.isSome_iff_exists.mp h
  obtain ⟨e, he, heq⟩ := List.mem_map.mp (List.mem_reverse.mp (idOf_mem hid))
  rw [← (Prod.mk.inj heq).1]
  exact List.mem_of_getElem? (List.mem_zipIdx_iff_getElem?.mp he)

theorem markedVocab_mem {extra : List Bytes} {tok : Bytes} (h : (markedVocab extra).InVocab tok) : tok ∈ byteTokens ++ extra := by
  unfold markedVocab at h
  generalize ht : ofTokens (byteTokens ++ extra) = T at h
  have hin : T.InVocab tok := h
  rw [← ht] at hin
  exact ofTokens_mem hin

/-- `a`, where `▁a` is a token. -/
theorem marked_token_round_trip :
    (markedVocab [[0xE2, 0x96, 0x81, 0x61]]).decode ((markedVocab [[0xE2, 0x96, 0x81, 0x61]]).encode [0x61]) = [0x61] :=
  ((metaspace_round_trip_iff (markedVocab_byteLevel _) (markedVocab_encoding (by decide)) ⟨['a'], by decide⟩).2
    byteDecode_default).mpr
    (.inr ⟨withMetaspace_inVocab (ofTokens_inVocab (List.mem_append_right _ (List.mem_singleton_self _))), by decide +kernel⟩)

/-- `a b` comes back as `▁a▁b`. -/
theorem marks_stay : ByteLevel (markedVocab []) ∧ MetaspaceEncoding (markedVocab []) ∧ ValidUtf8 [0x61, 0x20, 0x62] ∧
    (markedVocab []).decode ((markedVocab []).encode [0x61, 0x20, 0x62]) =
      [0xE2, 0x96, 0x81, 0x61, 0xE2, 0x96, 0x81, 0x62] := by
  have hv := markedVocab_byteLevel []
  have hm : (markedVocab []).MetaspaceEncoding := markedVocab_encoding (by simp)
  have ht : ValidUtf8 [0x61, 0x20, 0x62] := ⟨['a', ' ', 'b'], by decide⟩
  have hmark : (markedVocab []).marked [0x61, 0x20, 0x62] = [0xE2, 0x96, 0x81, 0x61, 0xE2, 0x96, 0x81, 0x62] := by decide
  have hout : ¬ (markedVocab []).InVocab [0xE2, 0x96, 0x81, 0x61, 0xE2, 0x96, 0x81, 0x62] := by
    intro hin
    have hmem := markedVocab_mem hin
    rw [List.append_nil] at hmem
    exact absurd (byteTokens_short _ hmem) (by decide)
  refine ⟨hv, hm, ht, ?_⟩
  rw [decode_encode_marked hv hm ht (by decide), hmark, if_neg hout]

end BpeTokenizer

end Uaii.Tokenizers
