/-
  Uaii.Tokenizers.BpeRoundTrip — decoding what was encoded.

  A piece that is itself a vocabulary entry is emitted as that entry, read in the
  alphabet of the byte symbols although the piece is raw text; decoding then maps it
  through `byte_decoder_`.

  Proved: with byte-level pieces and nothing added, a text comes back exactly when every
  piece of it that is a vocabulary entry is printable ASCII (`decode_encode_iff`).
-/

import Uaii.Lib.Lists
import Uaii.Tokenizers.Bpe

namespace Uaii.Tokenizers

open Merges (Merge mergePass)

/-! ## The byte map -/

theorem mem_printableBytes {b : Nat} :
    b ∈ printableBytes ↔ (33 ≤ b ∧ b ≤ 126) ∨ (161 ≤ b ∧ b ≤ 172) ∨ (174 ≤ b ∧ b ≤ 255) := by
  simp only [printableBytes, List.mem_append, List.mem_range'_1]
  omega

theorem mem_otherBytes {b : Nat} : b ∈ otherBytes ↔ b < 256 ∧ b ∉ printableBytes := by
  simp [otherBytes]

theorem mem_byteTable {b cp : Nat} :
    (b, cp) ∈ byteTable ↔ (b ∈ printableBytes ∧ cp = b) ∨ ∃ n, otherBytes[n]? = some b ∧ cp = 256 + n := by
  simp only [byteTable, List.mem_append, List.mem_map, Prod.mk.injEq]
  apply Iff.intro
  · intro h
    apply h.imp
    · intro h
      obtain ⟨_, hb, rfl, rfl⟩ := h
      exact ⟨hb, rfl⟩
    · intro h
      obtain ⟨e, he, rfl, rfl⟩ := h
      exact ⟨e.2, List.mem_zipIdx_iff_getElem?.mp he, rfl⟩
  · intro h
    apply h.imp
    · intro h
      exact ⟨b, h.1, rfl, h.2.symm⟩
    · intro h
      obtain ⟨n, hn, rfl⟩ := h
      exact ⟨(b, n), List.mem_zipIdx_iff_getElem?.mpr hn, rfl, rfl⟩

/-- A byte has one character, and a character one byte. -/
theorem byteTable_inj {b b' cp cp' : Nat} (h : (b, cp) ∈ byteTable) (h' : (b', cp') ∈ byteTable) : b = b' ↔ cp = cp' := by
  have hlt : ∀ {b : Nat}, b ∈ printableBytes → b < 256 := by
    intro b hb
    have := mem_printableBytes.mp hb
    omega
  have hnd : otherBytes.Nodup := List.nodup_range.filter _
  have hother : ∀ {n b : Nat}, otherBytes[n]? = some b → b ∉ printableBytes := fun hn =>
    (mem_otherBytes.mp (List.mem_of_getElem? hn)).2
  cases mem_byteTable.mp h with
  | inl h =>
    obtain ⟨hb, rfl⟩ := h
    cases mem_byteTable.mp h' with
    | inl h' => exact h'.2 ▸ Iff.rfl
    | inr h' =>
      obtain ⟨n, hn, rfl⟩ := h'
      have := hlt hb
      exact iff_of_false (fun he => hother hn (he ▸ hb)) (by omega)
  | inr h =>
    obtain ⟨n, hn, rfl⟩ := h
    cases mem_byteTable.mp h' with
    | inl h' =>
      obtain ⟨hb, rfl⟩ := h'
      have := hlt hb
      exact iff_of_false (fun he => hother hn (he ▸ hb)) (by omega)
    | inr h' =>
      obtain ⟨n', hn', rfl⟩ := h'
      rw [Nat.add_left_cancel_iff]
      apply Iff.intro
      · intro he
        subst he
        obtain ⟨hi, -⟩ := List.getElem?_eq_some_iff.mp hn
        exact (List.getElem?_inj hi hnd).mp (hn.trans hn'.symm)
      · intro he
        subst he
        exact Option.some.inj (hn.symm.trans hn')

theorem byteTable_of_lt {b : Nat} (h : b < 256) : ∃ cp, (b, cp) ∈ byteTable := by
  by_cases hb : b ∈ printableBytes
  · exact ⟨b, mem_byteTable.mpr (.inl ⟨hb, rfl⟩)⟩
  · obtain ⟨n, hn⟩ := List.mem_iff_getElem?.mp (mem_otherBytes.mpr ⟨h, hb⟩)
    exact ⟨256 + n, mem_byteTable.mpr (.inr ⟨n, hn, rfl⟩)⟩

theorem byteEncoder_mem (b : UInt8) : (b.toNat, byteEncoder b) ∈ byteTable := by
  obtain ⟨cp, hcp⟩ := byteTable_of_lt b.toNat_lt
  unfold byteEncoder
  cases hfind : byteTable.find? (·.1 == b.toNat) with
  | none => exact absurd (List.find?_eq_none.mp hfind _ hcp) (by simp)
  | some e =>
    have he : e.1 = b.toNat := by simpa using List.find?_some hfind
    show (b.toNat, e.2) ∈ byteTable
    rw [← he]
    exact List.mem_of_find?_eq_some hfind

theorem byteDecoder_some {b cp : Nat} (h : (b, cp) ∈ byteTable) : byteDecoder cp = some (.ofNat b) := by
  unfold byteDecoder
  cases hfind : byteTable.find? (·.2 == cp) with
  | none => exact absurd (List.find?_eq_none.mp hfind _ h) (by simp)
  | some e =>
    have he : e.2 = cp := by simpa using List.find?_some hfind
    rw [(byteTable_inj h (List.mem_of_find?_eq_some hfind)).mpr he.symm]
    rfl

theorem byteDecoder_encoder (b : UInt8) : byteDecoder (byteEncoder b) = some b := by
  rw [byteDecoder_some (byteEncoder_mem b), UInt8.ofNat_toNat]

theorem byteTable_lt {b cp : Nat} (h : (b, cp) ∈ byteTable) : cp < 512 := by
  cases mem_byteTable.mp h with
  | inl h =>
    have := mem_printableBytes.mp h.1
    omega
  | inr h =>
    obtain ⟨n, hn, he⟩ := h
    obtain ⟨hi, -⟩ := List.getElem?_eq_some_iff.mp hn
    have hlen : otherBytes.length ≤ 256 := by
      unfold otherBytes
      exact (List.length_filter_le _ _).trans (by simp)
    omega

theorem byteEncoder_lt (b : UInt8) : byteEncoder b < 2 ^ 21 := by
  have := byteTable_lt (byteEncoder_mem b)
  omega

theorem byteDecoder_high {cp : Nat} (h : 512 ≤ cp) : byteDecoder cp = none := by
  unfold byteDecoder
  rw [Option.map_eq_none_iff, List.find?_eq_none]
  intro e he hcp
  have hlt := byteTable_lt he
  have heq : e.2 = cp := by simpa using hcp
  omega

/-- Of the ASCII characters, only the printable ones stand for bytes, each for itself. -/
theorem byteDecoder_ascii {cp : Nat} (h : cp < 128) :
    byteDecoder cp = if 33 ≤ cp ∧ cp ≤ 126 then some (.ofNat cp) else none := by
  by_cases hp : 33 ≤ cp ∧ cp ≤ 126
  · rw [if_pos hp]
    exact byteDecoder_some (mem_byteTable.mpr (.inl ⟨mem_printableBytes.mpr (.inl hp), rfl⟩))
  · rw [if_neg hp]
    unfold byteDecoder
    rw [Option.map_eq_none_iff]
    apply List.find?_eq_none.mpr
    intro e he heq
    have hcp : e.2 = cp := by simpa using heq
    cases mem_byteTable.mp he with
    | inl h' =>
      have := mem_printableBytes.mp h'.1
      omega
    | inr h' =>
      obtain ⟨n, -, hn⟩ := h'
      omega

/-! ## Texts made of whole characters -/

/-- Whole characters. -/
def Whole (s : Bytes) : Prop := ∃ cps : List Nat, (∀ cp ∈ cps, cp < 2 ^ 21) ∧ s = utf8FromCps cps

theorem byteDecode_cps {cps : List Nat} (h : ∀ cp ∈ cps, cp < 2 ^ 21) :
    BpeTokenizer.byteDecode (utf8FromCps cps) = cps.filterMap byteDecoder := by
  unfold BpeTokenizer.byteDecode utf8FromCps
  rw [codepoints_encode cps h]

theorem Whole.nil : Whole [] := ⟨[], by simp, rfl⟩

theorem Whole.append {s t : Bytes} (hs : Whole s) (ht : Whole t) : Whole (s ++ t) := by
  obtain ⟨a, ha, rfl⟩ := hs
  obtain ⟨b, hb, rfl⟩ := ht
  refine ⟨a ++ b, fun cp hcp => ?_, by simp [utf8FromCps]⟩
  exact (List.mem_append.mp hcp).elim (ha cp) (hb cp)

theorem byteDecode_append {s t : Bytes} (hs : Whole s) (ht : Whole t) :
    BpeTokenizer.byteDecode (s ++ t) = BpeTokenizer.byteDecode s ++ BpeTokenizer.byteDecode t := by
  obtain ⟨a, ha, rfl⟩ := hs
  obtain ⟨b, hb, rfl⟩ := ht
  have hab : ∀ cp ∈ a ++ b, cp < 2 ^ 21 := fun cp hcp => (List.mem_append.mp hcp).elim (ha cp) (hb cp)
  rw [byteDecode_cps ha, byteDecode_cps hb, ← List.filterMap_append, ← byteDecode_cps hab]
  simp [utf8FromCps]

theorem byteDecode_flatten : ∀ {ss : List Bytes}, (∀ s ∈ ss, Whole s) →
    Whole ss.flatten ∧ BpeTokenizer.byteDecode ss.flatten = ss.flatMap BpeTokenizer.byteDecode := by
  intro ss
  induction ss with
  | nil => intro _; exact ⟨Whole.nil, rfl⟩
  | cons s ss ih =>
    intro h
    have hs := h s List.mem_cons_self
    obtain ⟨hw, hd⟩ := ih fun t ht => h t (List.mem_cons_of_mem _ ht)
    exact ⟨hs.append hw, by rw [List.flatten_cons, byteDecode_append hs hw, hd, List.flatMap_cons]⟩

theorem byteSymbol_whole (b : UInt8) : Whole (byteSymbol b) :=
  ⟨[byteEncoder b], by simpa using byteEncoder_lt b, by simp [byteSymbol, utf8FromCps]⟩

theorem byteDecode_symbol (b : UInt8) : BpeTokenizer.byteDecode (byteSymbol b) = [b] := by
  have h := @byteDecode_cps [byteEncoder b] (by simpa using byteEncoder_lt b)
  simpa [byteSymbol, utf8FromCps, byteDecoder_encoder] using h

/-- Valid UTF-8. -/
def ValidUtf8 (s : Bytes) : Prop := ∃ cs : List Char, s = cs.flatMap String.utf8EncodeChar

theorem char_lt (c : Char) : c.toNat < 2 ^ 21 := by
  have h := c.valid
  have hle : c.toNat < 0x110000 := by
    apply h.elim
    · intro h
      exact Nat.lt_trans h (by decide)
    · exact And.right
  omega

theorem ValidUtf8.cps {s : Bytes} (h : ValidUtf8 s) :
    ∃ cps : List Nat, (∀ cp ∈ cps, cp < 2 ^ 21) ∧ s = utf8FromCps cps ∧ codepoints s = cps := by
  obtain ⟨cs, rfl⟩ := h
  have hlt : ∀ cp ∈ cs.map Char.toNat, cp < 2 ^ 21 := by
    intro cp hcp
    obtain ⟨c, -, rfl⟩ := List.mem_map.mp hcp
    exact char_lt c
  have hs : cs.flatMap String.utf8EncodeChar = utf8FromCps (cs.map Char.toNat) := by
    unfold utf8FromCps
    rw [List.flatMap_map]
    exact List.flatMap_congr fun c _ => (utf8Encode_char c).symm
  exact ⟨cs.map Char.toNat, hlt, hs, by rw [hs]; exact codepoints_encode _ hlt⟩

/-! ## What decodes to itself -/

/-- Printable ASCII, `!` to `~`. -/
def Plain (s : Bytes) : Prop := ∀ b ∈ s, 33 ≤ b.toNat ∧ b.toNat ≤ 126

instance (s : Bytes) : Decidable (Plain s) := inferInstanceAs (Decidable (∀ b ∈ s, _))

theorem utf8Encode_ascii {cp : Nat} (h : cp < 128) : utf8Encode cp = [.ofNat cp] := by
  rw [utf8Encode, if_pos (by omega)]

theorem byteDecode_plain {s : Bytes} (h : Plain s) : BpeTokenizer.byteDecode s = s := by
  have hs : s = utf8FromCps (s.map (·.toNat)) := by
    unfold utf8FromCps
    rw [List.flatMap_map]
    have hone : ∀ b ∈ s, utf8Encode b.toNat = [b] := fun b hb => by
      rw [utf8Encode_ascii (by have := h b hb; omega), UInt8.ofNat_toNat]
    rw [List.flatMap_congr hone]
    exact (List.flatMap_singleton' s).symm
  have hlt : ∀ cp ∈ s.map (·.toNat), cp < 2 ^ 21 := by
    intro cp hcp
    obtain ⟨b, -, rfl⟩ := List.mem_map.mp hcp
    have := b.toNat_lt
    omega
  have hself : ∀ b ∈ s, (byteDecoder ∘ (·.toNat)) b = some b := by
    intro b hb
    show byteDecoder b.toNat = some b
    rw [byteDecoder_ascii (by have := h b hb; omega), if_pos (h b hb), UInt8.ofNat_toNat]
  calc BpeTokenizer.byteDecode s = BpeTokenizer.byteDecode (utf8FromCps (s.map (·.toNat))) := by rw [← hs]
    _ = (s.map (·.toNat)).filterMap byteDecoder := byteDecode_cps hlt
    _ = s := by rw [List.filterMap_map, List.filterMap_congr hself, List.filterMap_some]

/-- A character decodes to at most as many bytes as it takes; to as many only when it is printable ASCII. -/
theorem byteDecoder_length (cp : Nat) :
    (byteDecoder cp).toList.length ≤ (utf8Encode cp).length ∧
      ((byteDecoder cp).toList.length = (utf8Encode cp).length → Plain (utf8Encode cp)) := by
  have hle : (byteDecoder cp).toList.length ≤ 1 := by cases byteDecoder cp <;> simp
  have hpos := utf8Encode_length_pos cp
  refine ⟨by omega, fun he => ?_⟩
  by_cases hcp : cp < 128
  · rw [utf8Encode_ascii hcp] at he ⊢
    rw [byteDecoder_ascii hcp] at he
    by_cases hp : 33 ≤ cp ∧ cp ≤ 126
    · intro b hb
      rw [List.mem_singleton] at hb
      subst hb
      rw [UInt8.toNat_ofNat_of_lt' (show cp < 256 by omega)]
      exact hp
    · simp [hp] at he
  · have htwo : 2 ≤ (utf8Encode cp).length := by
      unfold utf8Encode
      rw [if_neg (by omega)]
      split
      · simp
      split
      all_goals simp
    omega

theorem byteDecode_length {s : Bytes} (h : Whole s) :
    (BpeTokenizer.byteDecode s).length ≤ s.length ∧ ((BpeTokenizer.byteDecode s).length = s.length → Plain s) := by
  obtain ⟨cps, hlt, rfl⟩ := h
  rw [byteDecode_cps hlt]
  clear hlt
  induction cps with
  | nil => exact ⟨Nat.le_refl _, fun _ b hb => by cases hb⟩
  | cons cp cps ih =>
    obtain ⟨hle, hplain⟩ := byteDecoder_length cp
    have hl : ((cp :: cps).filterMap byteDecoder).length =
        (byteDecoder cp).toList.length + (cps.filterMap byteDecoder).length := by
      rw [List.filterMap_cons]
      cases byteDecoder cp with
      | none => simp
      | some b => simp; omega
    have hr : (utf8FromCps (cp :: cps)).length = (utf8Encode cp).length + (utf8FromCps cps).length := by
      simp [utf8FromCps]
    rw [hl, hr]
    refine ⟨by omega, fun he b hb => ?_⟩
    have hb' : b ∈ utf8Encode cp ++ utf8FromCps cps := hb
    apply (List.mem_append.mp hb').elim
    · exact hplain (by omega) b
    · exact ih.2 (by omega) b

/-! ## The pieces of a text -/

theorem runFrom_pos {p : Nat → Bool} {cps : List Nat} {q : Nat} (h : (cps[q]?.map p).getD false = true) :
    0 < runFrom p cps q := by
  unfold runFrom
  cases hq : cps[q]? with
  | none => rw [hq] at h; cases h
  | some c =>
    rw [hq] at h
    obtain ⟨hlt, hc⟩ := List.getElem?_eq_some_iff.mp hq
    have hp : p c = true := h
    rw [List.drop_eq_getElem_cons hlt, hc, List.takeWhile_cons_of_pos hp, List.length_cons]
    omega

/-- Every turn takes at least one code point. -/
theorem pieceLen_pos {cps : List Nat} (h : cps ≠ []) : 0 < pieceLen cps := by
  obtain ⟨c, rest, rfl⟩ := List.exists_cons_of_ne_nil h
  unfold pieceLen
  by_cases hc : contractionLen (c :: rest) ≠ 0
  · rw [if_pos hc]
    exact Nat.pos_of_ne_zero hc
  rw [if_neg hc]
  dsimp only
  generalize hq : (if (((c :: rest)[0]?.map isUnicodeSpace).getD false &&
    ((c :: rest)[1]?.map (!isUnicodeSpace ·)).getD false) = true then 1 else 0) = q
  by_cases hl : ((c :: rest)[q]?.map isUnicodeLetter).getD false = true
  · rw [if_pos hl]
    exact runFrom_pos hl
  by_cases hd : ((c :: rest)[q]?.map isUnicodeDigit).getD false = true
  · rw [if_neg hl, if_pos hd]
    exact runFrom_pos hd
  by_cases ho : ((c :: rest)[q]?.map isOther).getD false = true
  · rw [if_neg hl, if_neg hd, if_pos ho]
    exact runFrom_pos ho
  -- what is left starts with a space
  rw [if_neg hl, if_neg hd, if_neg ho]
  refine runFrom_pos (show isUnicodeSpace c = true from ?_)
  split at hq
  · next hlead =>
    rw [Bool.and_eq_true] at hlead
    exact hlead.1
  · subst hq
    have hl' : ¬ isUnicodeLetter c = true := hl
    have hd' : ¬ isUnicodeDigit c = true := hd
    have ho' : ¬ isOther c = true := ho
    simpa [isOther, hl', hd'] using ho'

theorem piecesFrom_flatten : ∀ (fuel : Nat) (cps : List Nat), cps.length ≤ fuel → (piecesFrom fuel cps).flatten = cps := by
  intro fuel
  induction fuel with
  | zero =>
    intro cps h
    rw [List.length_eq_zero_iff.mp (Nat.le_zero.mp h)]
    rfl
  | succ fuel ih =>
    intro cps h
    cases cps with
    | nil => rfl
    | cons c rest =>
      have hpos := pieceLen_pos (List.cons_ne_nil c rest)
      rw [piecesFrom, List.flatten_cons, ih _ (by rw [List.length_drop]; omega), List.take_append_drop]
      simp

/-- The pieces of a valid text are made of its characters, and are the text. -/
theorem gpt2RegexSplit_valid {t : Bytes} (h : ValidUtf8 t) :
    (gpt2RegexSplit t).flatten = t ∧ ∀ p ∈ gpt2RegexSplit t, Whole p := by
  obtain ⟨cps, hlt, ht, hcps⟩ := h.cps
  have hflat := piecesFrom_flatten cps.length cps (Nat.le_refl _)
  unfold gpt2RegexSplit
  rw [hcps]
  refine ⟨?_, fun p hp => ?_⟩
  · rw [← List.flatMap_def]
    unfold utf8FromCps
    rw [← List.flatMap_assoc, List.flatMap_id', hflat]
    exact ht.symm
  · obtain ⟨q, hq, rfl⟩ := List.mem_map.mp hp
    refine ⟨q, fun cp hcp => hlt cp ?_, rfl⟩
    rw [← hflat]
    exact List.mem_flatten.mpr ⟨q, hq, hcp⟩

/-! ## The tokens of a piece -/

namespace BpeTokenizer

variable {T : BpeTokenizer}

/-- The vocabulary has every byte's symbol and whatever the merges make. -/
structure ByteLevel (T : BpeTokenizer) : Prop where
  consistent : T.Consistent
  bytes : ∀ b, T.InVocab (byteSymbol b)
  merges : ∀ m ∈ T.merges, T.InVocab m.made

/-- The vocabulary entries a piece is encoded to. -/
def tokensOf (T : BpeTokenizer) (piece : Bytes) : List Bytes := if T.InVocab piece then [piece] else T.segments piece

theorem bpeEncodePiece_eq (T : BpeTokenizer) (piece : Bytes) :
    T.bpeEncodePiece piece = (T.tokensOf piece).map fun w => (T.idOf w).getD 0 := by
  by_cases hin : T.InVocab piece
  · obtain ⟨id, hid⟩ := Option.isSome_iff_exists.mp hin
    simp [bpeEncodePiece, tokensOf, hin, hid]
  · have hid : T.idOf piece = none := by simpa [InVocab] using hin
    simp [bpeEncodePiece, tokensOf, hin, hid]

theorem segments_whole (piece : Bytes) : ∀ s ∈ T.segments piece, Whole s := by
  refine Merges.mergePass_symbols (fun a b => Whole.append) fun s hs => ?_
  obtain ⟨b, -, rfl⟩ := List.mem_map.mp hs
  exact byteSymbol_whole b

theorem segments_inVocab (h : T.ByteLevel) (piece : Bytes) : ∀ s ∈ T.segments piece, T.InVocab s := by
  intro s hs
  apply (Merges.mergePass_mem s hs).elim
  · intro hs
    obtain ⟨b, -, rfl⟩ := List.mem_map.mp hs
    exact h.bytes b
  · intro hs
    obtain ⟨m, hm, rfl⟩ := hs
    exact h.merges m hm

/-- The symbols of a piece decode to the piece. -/
theorem byteDecode_segments (piece : Bytes) : (T.segments piece).flatMap byteDecode = piece := by
  have hword : ∀ s ∈ byteWord piece, Whole s := by
    intro s hs
    obtain ⟨b, -, rfl⟩ := List.mem_map.mp hs
    exact byteSymbol_whole b
  rw [← (byteDecode_flatten (segments_whole piece)).2, segments, Merges.mergePass_flatten,
    (byteDecode_flatten hword).2, byteWord, List.flatMap_map]
  simp only [byteDecode_symbol]
  exact List.flatMap_singleton' piece

/-- A short control-like token is ASCII, and stands for itself. -/
theorem byteDecode_controlLike {tok : Bytes} (h3 : controlLike 3 tok = true) (h5 : controlLike 5 tok = false) :
    byteDecode tok = tok := by
  refine byteDecode_plain fun b hb => ?_
  have hlt : tok.length < 5 := by
    apply Nat.lt_of_not_le
    intro hle
    simp only [controlLike, Bool.and_eq_true, decide_eq_true_eq] at h3
    simp [controlLike, hle, h3.1.2, h3.2] at h5
  simp only [controlLike, Bool.and_eq_true, decide_eq_true_eq, List.isPrefixOf_iff_prefix, List.isSuffixOf_iff_suffix] at h3
  obtain ⟨⟨hle, l, hl⟩, r, hr⟩ := h3
  have hl' : tok = 0x3C :: 0x7C :: l := hl.symm
  have hr' : tok = r ++ [0x7C, 0x3E] := hr.symm
  have hlen : l.length + 2 = tok.length := by rw [hl']; rfl
  -- the last two bytes reach back into the first two
  have hmem : b = 0x3C ∨ b ∈ [(0x7C : UInt8), 0x3E] := by
    rw [hr'] at hl' hb hlen
    cases r with
    | nil => exact .inr hb
    | cons c r =>
      obtain ⟨rfl, hr₁⟩ := List.cons.inj hl'
      cases r with
      | nil => simpa using hb
      | cons d r =>
        obtain ⟨rfl, -⟩ := List.cons.inj hr₁
        have hr0 : r = [] := by
          apply List.eq_nil_of_length_eq_zero
          simp at hlen
          rw [hr'] at hlt
          simp at hlt
          omega
        subst hr0
        simpa using hb
  simp only [List.mem_cons, List.not_mem_nil, or_false] at hmem
  apply hmem.elim
  · intro hb
    subst hb
    decide
  · intro hb
    apply hb.elim
    · intro hb
      subst hb
      decide
    · intro hb
      subst hb
      decide

/-- The loop of `decode` on vocabulary entries made of whole characters. -/
theorem decodeFrom_tokens (hc : T.Consistent) (hspec : T.specialTokens = []) : ∀ (toks : List Bytes) (merged : Bytes),
    (∀ tok ∈ toks, T.InVocab tok ∧ Whole tok) → Whole merged →
      T.decodeFrom merged (toks.map fun w => (T.idOf w).getD 0) = byteDecode merged ++ toks.flatMap byteDecode := by
  intro toks
  induction toks with
  | nil => intro merged _ _; simp [decodeFrom]
  | cons tok toks ih =>
    intro merged htoks hm
    obtain ⟨hin, hw⟩ := htoks tok List.mem_cons_self
    have hrest : ∀ t ∈ toks, T.InVocab t ∧ Whole t := fun t ht => htoks t (List.mem_cons_of_mem _ ht)
    obtain ⟨id, hid⟩ := Option.isSome_iff_exists.mp hin
    obtain ⟨hpos, hget⟩ := hc.ids tok id hid
    obtain ⟨hlt, hget'⟩ := List.getElem?_eq_some_iff.mp hget
    have htok : T.idToToken.getD id.toNat [] = tok := by rw [List.getD_eq_getElem?_getD, hget]; rfl
    rw [List.map_cons, hid, Option.getD_some, decodeFrom, if_pos ⟨hpos, hlt⟩]
    simp only [htok]
    by_cases hs : T.isSpecial tok = true
    · rw [if_pos hs, ih [] hrest Whole.nil]
      have h3 : controlLike 3 tok = true := by simpa [isSpecial, hspec] using hs
      have h5 : controlLike 5 tok = false := by
        apply Bool.eq_false_iff.mpr
        intro h5
        have hmem := hc.controls tok hin h5
        rw [hspec] at hmem
        cases hmem
      rw [List.flatMap_cons, byteDecode_controlLike h3 h5, List.append_assoc]
      rfl
    · rw [if_neg hs, ih (merged ++ tok) hrest (hm.append hw), byteDecode_append hm hw, List.flatMap_cons, List.append_assoc]

/-- Nothing is added to the text and nothing is cut out of it. -/
structure BareEncoding (T : BpeTokenizer) : Prop where
  pretokenize : T.pretokenize = true
  bos : T.addBos = false
  prefixSpace : T.addPrefixSpace = false
  specials : T.specialTokens = []
  metaspace : T.metaspace = []

theorem encode_bare (h : T.BareEncoding) (t : Bytes) : T.encode t = (gpt2RegexSplit t).flatMap T.bpeEncodePiece := by
  have hat : ∀ s, T.specialAt s = none := fun s => by rw [specialAt, h.specials]; rfl
  have hbefore : ∀ s : Bytes, T.beforeSpecial s = s.length := by
    intro s
    induction s with
    | nil => rfl
    | cons c s ih => simp [beforeSpecial, hat, ih]
  have hfrom : T.encodeFrom t.length t = T.encodeChunk t := by
    cases t with
    | nil => simp [encodeFrom, encodeChunk, h.pretokenize, gpt2RegexSplit, codepoints, codepointsFrom, piecesFrom]
    | cons c rest =>
      rw [List.length_cons, encodeFrom, hat]
      simp only [hbefore, List.take_length, List.drop_length]
      cases rest with
      | nil => simp [encodeFrom]
      | cons d rest => simp [encodeFrom]
  unfold encode
  simp only [h.metaspace, h.bos, h.prefixSpace, if_true, Bool.and_false, Bool.false_and, Bool.false_eq_true, if_false,
    List.nil_append]
  rw [hfrom, encodeChunk, if_pos h.pretokenize]

/-- What comes back: an entry's piece is read as byte symbols, the others are themselves. -/
theorem decode_encode_eq (hv : T.ByteLevel) (hb : T.BareEncoding) {t : Bytes} (ht : ValidUtf8 t) :
    T.decode (T.encode t) = (gpt2RegexSplit t).flatMap fun p => if T.InVocab p then byteDecode p else p := by
  have hids : T.encode t = ((gpt2RegexSplit t).flatMap T.tokensOf).map fun w => (T.idOf w).getD 0 := by
    rw [encode_bare hb, List.map_flatMap]
    exact List.flatMap_congr fun p _ => bpeEncodePiece_eq T p
  have htoks : ∀ tok ∈ (gpt2RegexSplit t).flatMap T.tokensOf, T.InVocab tok ∧ Whole tok := by
    intro tok htok
    obtain ⟨p, hp, htok⟩ := List.mem_flatMap.mp htok
    unfold tokensOf at htok
    by_cases hin : T.InVocab p
    · rw [if_pos hin, List.mem_singleton] at htok
      exact htok ▸ ⟨hin, (gpt2RegexSplit_valid ht).2 p hp⟩
    · rw [if_neg hin] at htok
      exact ⟨segments_inVocab hv p tok htok, segments_whole p tok htok⟩
  rw [decode, hids, decodeFrom_tokens hv.consistent hb.specials _ [] htoks Whole.nil, List.flatMap_assoc]
  refine (List.nil_append _).trans (List.flatMap_congr fun p _ => ?_)
  unfold tokensOf
  by_cases hin : T.InVocab p
  · rw [if_pos hin, if_pos hin, List.flatMap_singleton]
  · rw [if_neg hin, if_neg hin, byteDecode_segments]

/-- A text comes back exactly when its pieces that are vocabulary entries are printable ASCII. -/
theorem decode_encode_iff (hv : T.ByteLevel) (hb : T.BareEncoding) {t : Bytes} (ht : ValidUtf8 t) :
    T.decode (T.encode t) = t ↔ ∀ p ∈ gpt2RegexSplit t, T.InVocab p → Plain p := by
  obtain ⟨hflat, hwhole⟩ := gpt2RegexSplit_valid ht
  have hle : ∀ p ∈ gpt2RegexSplit t, (if T.InVocab p then byteDecode p else p).length ≤ p.length := by
    intro p hp
    by_cases hin : T.InVocab p
    · rw [if_pos hin]
      exact (byteDecode_length (hwhole p hp)).1
    · rw [if_neg hin]
  rw [decode_encode_eq hv hb ht]
  -- pieces that can only shrink give the text back when each gives itself back
  have hiff := Lists.flatMap_eq_of_length_le (f := fun p => if T.InVocab p then byteDecode p else p) (g := id) hle
  rw [List.flatMap_id, hflat] at hiff
  simp only [id] at hiff
  rw [hiff]
  apply Iff.intro
  · intro hall p hp hin
    have hself := hall p hp
    rw [if_pos hin] at hself
    exact (byteDecode_length (hwhole p hp)).2 (by rw [hself])
  · intro hall p hp
    by_cases hin : T.InVocab p
    · rw [if_pos hin]
      exact byteDecode_plain (hall p hp hin)
    · rw [if_neg hin]

/-- The tokenizer of a list of tokens without merges. -/
def ofTokens (tokens : List Bytes) : BpeTokenizer := ensureSpecials
  { empty with tokenToId := (tokens.zipIdx.map fun e => (e.1, (e.2 : Int))).reverse, idToToken := tokens, pretokenize := true }

theorem ofTokens_loaded {tokens : List Bytes} (h : tokens ≠ []) :
    loadFromVocabMerges { empty with pretokenize := true } tokens [] = .ok (ofTokens tokens) := by
  rw [loadFromVocabMerges, if_neg h]
  rfl

theorem ofTokens_inVocab {tokens : List Bytes} {tok : Bytes} (h : tok ∈ tokens) : (ofTokens tokens).InVocab tok := by
  obtain ⟨n, hn⟩ := List.mem_iff_getElem?.mp h
  have hpair : (tok, (n : Int)) ∈ (ofTokens tokens).tokenToId :=
    List.mem_reverse.mpr (List.mem_map.mpr ⟨(tok, n), List.mem_zipIdx_iff_getElem?.mpr hn, rfl⟩)
  show (((ofTokens tokens).tokenToId.find? _).map _).isSome = true
  rw [Option.isSome_map]
  exact List.find?_isSome.mpr ⟨_, hpair, by simp⟩

/-- Short tokens are no control tokens. -/
theorem ofTokens_bare {tokens : List Bytes} (h : ∀ tok ∈ tokens, tok.length < 5) : (ofTokens tokens).BareEncoding := by
  refine ⟨rfl, rfl, rfl, ?_, rfl⟩
  apply List.eq_nil_iff_forall_not_mem.mpr
  intro t ht
  have hctl := (mem_foldl_insert _ _).mp (mem_sortSpecials.mp ht)
  simp only [empty, List.not_mem_nil, false_or, List.mem_filter] at hctl
  obtain ⟨hmem, h5⟩ := hctl
  obtain ⟨e, he, rfl⟩ := List.mem_map.mp hmem
  obtain ⟨e', he', rfl⟩ := List.mem_map.mp (List.mem_reverse.mp he)
  have hlt := h _ (List.mem_of_getElem? (List.mem_zipIdx_iff_getElem?.mp he'))
  simp only [controlLike, Bool.and_eq_true, decide_eq_true_eq] at h5
  exact absurd h5.1.1 (Nat.not_le_of_lt hlt)

/-- The 256 byte symbols. -/
def byteTokens : List Bytes := (List.range 256).map fun b => byteSymbol (.ofNat b)

theorem byteSymbol_mem (b : UInt8) : byteSymbol b ∈ byteTokens := by
  unfold byteTokens
  exact List.mem_map.mpr ⟨b.toNat, List.mem_range.mpr b.toNat_lt, by rw [UInt8.ofNat_toNat]⟩

/-- The byte symbols and nothing else. -/
def byteVocab : BpeTokenizer := ofTokens byteTokens

theorem byteVocab_byteLevel : byteVocab.ByteLevel :=
  ⟨loadFromVocabMerges_consistent (ofTokens_loaded (List.ne_nil_of_mem (byteSymbol_mem 0))),
    fun b => ofTokens_inVocab (byteSymbol_mem b), fun m hm => by cases hm⟩

theorem byteTokens_short : ∀ tok ∈ byteTokens, tok.length < 5 := by
  intro tok htok
  obtain ⟨b, -, rfl⟩ := List.mem_map.mp htok
  unfold byteSymbol utf8Encode
  repeat' split
  all_goals simp

theorem byteVocab_bare : byteVocab.BareEncoding := ofTokens_bare byteTokens_short

/-- `hi`: no piece of it is an entry. -/
theorem hi_round_trip : byteVocab.decode (byteVocab.encode [0x68, 0x69]) = [0x68, 0x69] :=
  (decode_encode_iff byteVocab_byteLevel byteVocab_bare ⟨['h', 'i'], by decide⟩).mpr (by
    have hp : gpt2RegexSplit [0x68, 0x69] = [[0x68, 0x69]] := by decide +kernel
    intro p hmem _
    rw [hp, List.mem_singleton] at hmem
    subst hmem
    decide +kernel)

/-- The letter `Ġ` is the symbol of the space, and comes back as one. -/
theorem g_dot_lost : ByteLevel byteVocab ∧ BareEncoding byteVocab ∧ ValidUtf8 [0xC4, 0xA0] ∧
    byteVocab.decode (byteVocab.encode [0xC4, 0xA0]) = [0x20] := by
  have hvalid : ValidUtf8 [0xC4, 0xA0] := ⟨['Ġ'], by decide⟩
  have hpieces : gpt2RegexSplit [0xC4, 0xA0] = [[0xC4, 0xA0]] := by decide +kernel
  have hsymbol : byteSymbol 0x20 = [0xC4, 0xA0] := by decide +kernel
  refine ⟨byteVocab_byteLevel, byteVocab_bare, hvalid, ?_⟩
  rw [decode_encode_eq byteVocab_byteLevel byteVocab_bare hvalid, hpieces, List.flatMap_singleton, ← hsymbol,
    if_pos (byteVocab_byteLevel.bytes 0x20), byteDecode_symbol]

end BpeTokenizer

end Uaii.Tokenizers
