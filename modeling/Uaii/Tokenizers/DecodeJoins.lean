/-
  Uaii.Tokenizers.DecodeJoins — `ITokenizer::decode` of a list of tokens beside that of
  each token alone.

  `SimpleTokenizer` puts a space between the tokens it shows. `SpmTokenizer` reads a mark
  `▁` that lies across two pieces, and takes the first space of a text off, which is once
  for the list and once for each token. `BpeTokenizer` reads a character that lies across
  two pieces; it writes special tokens as they are.

  Proved: the texts of the tokens are the text of the list exactly when none of this
  happens (`simple_joins_iff`, `spm_joins_iff`); for BPE then, and always with pieces that
  are whole characters (`bpe_joins`, `bpe_whole_joins`).
-/

import Uaii.Tokenizers.BpeRoundTrip
import Uaii.Tokenizers.SimpleTokenizer

namespace Uaii.Tokenizers

/-! ## A space between two words -/

theorem length_intercalate {α : Type} (sep : α) : ∀ xs : List (List α),
    ([sep].intercalate xs).length = xs.flatten.length + (xs.length - 1)
  | [] => rfl
  | [x] => by simp
  | x :: y :: xs => by
    rw [List.intercalate_cons_cons, List.length_append, List.length_append, length_intercalate sep (y :: xs)]
    simp only [List.flatten_cons, List.length_append, List.length_cons, List.length_nil]
    omega

namespace SimpleTokenizer

variable {T : SimpleTokenizer}

theorem decode_one (T : SimpleTokenizer) (id : Int) : T.decode [id] = if T.shown id then T.piece id else [] := by
  unfold decode
  by_cases h : T.shown id <;> simp [h]

theorem decode_each (T : SimpleTokenizer) (ids : List Int) : ids.flatMap (fun id => T.decode [id]) = ((ids.filter T.shown).map T.piece).flatten := by
  induction ids with
  | nil => rfl
  | cons id ids ih =>
    rw [List.flatMap_cons, ih, decode_one]
    by_cases h : T.shown id <;> simp [h]

theorem simple_joins_iff (T : SimpleTokenizer) (ids : List Int) :
    ids.flatMap (fun id => T.decode [id]) = T.decode ids ↔ (ids.filter T.shown).length ≤ 1 := by
  rw [decode_each, decode]
  constructor
  · intro h
    have hlen := congrArg List.length h
    rw [length_intercalate, List.length_map] at hlen
    omega
  · intro h
    rcases hs : ids.filter T.shown with _ | ⟨id, _ | ⟨id', rest⟩⟩
    · rfl
    · simp
    · simp [hs] at h

end SimpleTokenizer

/-! ## Marks -/

/-- How many marks `decode` reads. -/
def marks : Bytes → Nat
  | a :: b :: c :: s => if [a, b, c] = spmSpace then marks s + 1 else marks (b :: c :: s)
  | _ => 0

theorem marks_mark (s : Bytes) : marks (spmSpace ++ s) = marks s + 1 := by
  have hs : spmSpace = [0xE2, 0x96, 0x81] := spmSpace_eq
  rw [hs]
  show marks (0xE2 :: 0x96 :: 0x81 :: s) = _
  rw [marks, if_pos hs.symm]

theorem marks_cons {a : UInt8} {s : Bytes} (h : ¬ spmSpace <+: a :: s) : marks (a :: s) = marks s := by
  rcases s with _ | ⟨b, _ | ⟨c, s⟩⟩
  · rfl
  · rfl
  · rw [marks, if_neg]
    intro heq
    exact h ⟨s, by rw [← heq]; rfl⟩

/-- Two texts are read as they are alone, or make a mark together. -/
theorem unmark_append (x y : Bytes) :
    (unmark (x ++ y) = unmark x ++ unmark y ∧ marks (x ++ y) = marks x + marks y) ∨ marks x + marks y < marks (x ++ y) := by
  induction x using mark_induction with
  | nil => exact .inl ⟨rfl, (Nat.zero_add _).symm⟩
  | mark r ih =>
    rw [List.append_assoc, unmark_mark, unmark_mark, marks_mark, marks_mark]
    rcases ih with ⟨hu, hm⟩ | hlt
    · exact .inl ⟨by rw [hu, List.cons_append], by omega⟩
    · exact .inr (by omega)
  | byte a r h ih =>
    by_cases hacross : spmSpace <+: a :: r ++ y
    · -- the mark begins in `x` and ends in `y`
      right
      obtain ⟨z, hz⟩ := hacross
      rw [← hz, marks_mark]
      rw [spmSpace_eq] at hz h
      rcases r with _ | ⟨b, _ | ⟨c, r⟩⟩
      · obtain ⟨rfl, rfl⟩ : 0xE2 = a ∧ 0x96 :: 0x81 :: z = y := by simpa using hz
        rw [marks_cons (a := 0x96) (by rw [spmSpace_eq]; simp), marks_cons (a := 0x81) (by rw [spmSpace_eq]; simp)]
        simp [marks]
      · obtain ⟨rfl, rfl, rfl⟩ : 0xE2 = a ∧ 0x96 = b ∧ 0x81 :: z = y := by simpa using hz
        rw [marks_cons (s := z) (by rw [spmSpace_eq]; simp)]
        simp [marks]
      · obtain ⟨rfl, rfl, rfl, -⟩ : 0xE2 = a ∧ 0x96 = b ∧ 0x81 = c ∧ z = r ++ y := by simpa using hz
        exact absurd ⟨r, rfl⟩ h
    · rw [List.cons_append] at hacross ⊢
      rw [unmark_cons hacross, unmark_cons h, marks_cons hacross, marks_cons h]
      exact ih.imp_left fun ⟨hu, hm⟩ => ⟨by rw [hu, List.cons_append], hm⟩

theorem unmark_flatMap {α : Type} (f : α → Bytes) : ∀ l : List α,
    (unmark (l.flatMap f) = l.flatMap (fun a => unmark (f a)) ∧ marks (l.flatMap f) = (l.map fun a => marks (f a)).sum) ∨
      (l.map fun a => marks (f a)).sum < marks (l.flatMap f)
  | [] => .inl ⟨rfl, rfl⟩
  | a :: l => by
    simp only [List.flatMap_cons, List.map_cons, List.sum_cons]
    rcases unmark_append (f a) (l.flatMap f) with ⟨hu, hm⟩ | hlt
    · rcases unmark_flatMap f l with ⟨hul, hml⟩ | hlt
      · exact .inl ⟨by rw [hu, hul], by rw [hm, hml]⟩
      · exact .inr (by omega)
    · rcases unmark_flatMap f l with ⟨-, hml⟩ | hltl
      · exact .inr (by omega)
      · exact .inr (by omega)

/-- Each mark that is read takes one first byte of a mark away. -/
theorem count_unmark (s : Bytes) : (unmark s).count 0xE2 + marks s = s.count 0xE2 := by
  induction s using mark_induction with
  | nil => rfl
  | mark r ih =>
    rw [unmark_mark, marks_mark, List.count_append, List.count_cons_of_ne (by decide), spmSpace_eq]
    simp only [List.count_cons, List.count_nil]
    simp
    omega
  | byte a r h ih =>
    rw [unmark_cons h, marks_cons h, List.count_cons, List.count_cons]
    omega

/-! ## The first space -/

/-- The last step of `decode`. -/
def strip (out : Bytes) : Bytes := if out.head? = some 0x20 then out.tail else out

/-- No part after the first that is not empty begins with a space. -/
def LaterPlain : List Bytes → Prop
  | [] => True
  | v :: vs => if v = [] then LaterPlain vs else ∀ w ∈ vs, w.head? ≠ some 0x20

theorem strip_eq_iff {v : Bytes} : strip v = v ↔ v.head? ≠ some 0x20 := by
  unfold strip
  split
  · next h =>
    refine iff_of_false (fun he => ?_) (not_not.mpr h)
    obtain ⟨s, rfl⟩ := List.head?_eq_some_iff.mp h
    simpa using congrArg List.length he
  · next h => exact iff_of_true rfl h

theorem strip_append {v : Bytes} (h : v ≠ []) (w : Bytes) : strip (v ++ w) = strip v ++ w := by
  obtain ⟨c, v, rfl⟩ := List.exists_cons_of_ne_nil h
  unfold strip
  by_cases hc : c = 0x20 <;> simp [hc]

theorem strip_length (v : Bytes) : (strip v).length ≤ v.length := by
  unfold strip
  split
  · simp
  · exact Nat.le_refl _

theorem strip_count (v : Bytes) : (strip v).count 0xE2 = v.count 0xE2 := by
  unfold strip
  split
  · next h =>
    obtain ⟨s, rfl⟩ := List.head?_eq_some_iff.mp h
    rw [List.tail_cons, List.count_cons_of_ne (by decide)]
  · rfl

theorem strip_flatten_iff : ∀ vs : List Bytes, vs.flatMap strip = strip vs.flatten ↔ LaterPlain vs
  | [] => by simp [strip, LaterPlain]
  | v :: vs => by
    rw [List.flatMap_cons, List.flatten_cons, LaterPlain]
    by_cases hv : v = []
    · subst hv
      rw [if_pos rfl, ← strip_flatten_iff vs]
      simp [strip]
    · rw [if_neg hv, strip_append hv, List.append_cancel_left_eq]
      have hiff := Lists.flatMap_eq_of_length_le (f := strip) (g := id) (l := vs) fun w _ => strip_length w
      rw [List.flatMap_id] at hiff
      rw [hiff]
      exact forall₂_congr fun w _ => strip_eq_iff

namespace SpmTokenizer

/-- The text of a token, with a space for each mark. -/
def reading (T : SpmTokenizer) (id : Int) : Bytes := unmark (T.spelled id)

theorem decode_one (T : SpmTokenizer) (id : Int) : T.decode [id] = strip (T.reading id) := by
  show strip (unmark (T.spelled id ++ [])) = _
  rw [List.append_nil]
  rfl

theorem decode_eq (T : SpmTokenizer) (ids : List Int) : T.decode ids = strip (unmark (ids.flatMap T.spelled)) := rfl

/-- No mark lies across the pieces, and none but the first begins with a space. -/
structure Joins (T : SpmTokenizer) (ids : List Int) : Prop where
  apart : marks (ids.flatMap T.spelled) = (ids.map fun id => marks (T.spelled id)).sum
  plain : LaterPlain (ids.map T.reading)

theorem spm_joins_iff (T : SpmTokenizer) (ids : List Int) :
    ids.flatMap (fun id => T.decode [id]) = T.decode ids ↔ T.Joins ids := by
  have heach : ids.flatMap (fun id => T.decode [id]) = (ids.map T.reading).flatMap strip := by
    rw [List.flatMap_map]
    exact List.flatMap_congr fun id _ => T.decode_one id
  have hread : ids.flatMap T.reading = (ids.map T.reading).flatten := List.flatMap_def ..
  rw [heach, decode_eq]
  rcases unmark_flatMap T.spelled ids with ⟨hu, hm⟩ | hlt
  · rw [hu]
    show _ = strip (ids.flatMap T.reading) ↔ _
    rw [hread, strip_flatten_iff]
    exact ⟨fun h => ⟨hm, h⟩, fun h => h.plain⟩
  · refine iff_of_false (fun h => ?_) fun h => absurd h.apart (by omega)
    have hcount := congrArg (List.count 0xE2) h
    rw [strip_count] at hcount
    have hsum : ∀ l : List Int, ((l.map T.reading).flatMap strip).count 0xE2 + (l.map fun id => marks (T.spelled id)).sum =
        (l.flatMap T.spelled).count 0xE2 := by
      intro l
      induction l with
      | nil => rfl
      | cons id l ih =>
        have hone := count_unmark (T.spelled id)
        simp only [List.map_cons, List.flatMap_cons, List.count_append, List.sum_cons, strip_count]
        show (unmark (T.spelled id)).count 0xE2 + _ + _ = _
        omega
    have hall := count_unmark (ids.flatMap T.spelled)
    have heq := hsum ids
    omega

end SpmTokenizer

/-! ## Characters -/

/-- The first byte of a longer character stands for a byte itself. -/
theorem byteDecoder_lead {n : Nat} (h : 0xC0 ≤ n) (hlt : n < 256) : byteDecoder n ≠ none := by
  have hmem : (n, n) ∈ byteTable := mem_byteTable.mpr (.inl ⟨mem_printableBytes.mpr (by omega), rfl⟩)
  rw [byteDecoder_some hmem]
  simp

/-- A character that stands for no byte is read as it is when more follows. -/
theorem utf8Next_append {s rest : Bytes} {cp : Nat} (h : utf8Next s = some (cp, rest)) (hcp : byteDecoder cp = none) (y : Bytes) :
    utf8Next (s ++ y) = some (cp, rest ++ y) := by
  rcases s with _ | ⟨c, s⟩
  · cases h
  have hc : c.toNat < 256 := c.toNat_lt
  obtain ⟨hE0, hF0, hF8⟩ := mark_and hc
  have htail : ∀ i, i < s.length → tailBits (s ++ y) i = tailBits s i := by
    intro i hi
    rw [tailBits, tailBits, List.getD_append _ _ _ _ hi]
  rw [utf8Next] at h
  rw [List.cons_append, utf8Next]
  by_cases h1 : c.toNat < 0x80
  · rw [if_pos h1] at h ⊢
    cases h
    rfl
  rw [if_neg h1] at h ⊢
  by_cases h2 : c.toNat &&& 0xE0 = 0xC0 ∧ 1 ≤ s.length
  · rw [if_pos h2] at h
    rw [if_pos ⟨h2.1, by rw [List.length_append]; omega⟩, htail 0 (by omega), List.drop_append_of_le_length h2.2]
    cases h
    rfl
  rw [if_neg h2] at h
  by_cases h3 : c.toNat &&& 0xF0 = 0xE0 ∧ 2 ≤ s.length
  · rw [if_pos h3] at h
    rw [if_neg (fun h' => by rw [hE0] at h'; rw [hF0] at h3; omega), if_pos ⟨h3.1, by rw [List.length_append]; omega⟩,
      htail 0 (by omega), htail 1 (by omega), List.drop_append_of_le_length h3.2]
    cases h
    rfl
  rw [if_neg h3] at h
  by_cases h4 : c.toNat &&& 0xF8 = 0xF0 ∧ 3 ≤ s.length
  · rw [if_pos h4] at h
    rw [if_neg (fun h' => by rw [hE0] at h'; rw [hF8] at h4; omega), if_neg (fun h' => by rw [hF0] at h'; rw [hF8] at h4; omega),
      if_pos ⟨h4.1, by rw [List.length_append]; omega⟩, htail 0 (by omega), htail 1 (by omega), htail 2 (by omega),
      List.drop_append_of_le_length h4.2]
    cases h
    rfl
  -- what is left stands for itself, so it begins no longer character
  rw [if_neg h4] at h
  cases h
  have hlow : c.toNat < 0xC0 := by
    by_contra hge
    exact byteDecoder_lead (by omega) hc hcp
  rw [hE0, hF0, hF8, if_neg (by omega), if_neg (by omega), if_neg (by omega)]

namespace BpeTokenizer

theorem byteDecode_next {s rest : Bytes} {cp : Nat} (h : utf8Next s = some (cp, rest)) :
    byteDecode s = (byteDecoder cp).toList ++ byteDecode rest := by
  rw [byteDecode, codepoints_next h, List.filterMap_cons]
  cases byteDecoder cp <;> rfl

/-- A text that is read as nothing changes nothing behind it. -/
theorem byteDecode_append_of_nil (s y : Bytes) (h : byteDecode s = []) : byteDecode (s ++ y) = byteDecode y := by
  induction hn : s.length using Nat.strongRecOn generalizing s with
  | ind n ih =>
    subst hn
    cases hnext : utf8Next s with
    | none =>
      rcases s with _ | ⟨c, s⟩
      · rfl
      · rw [utf8Next] at hnext
        split_ifs at hnext
    | some r =>
      obtain ⟨cp, rest⟩ := r
      rw [byteDecode_next hnext] at h
      obtain ⟨hcp, hrest⟩ := List.append_eq_nil_iff.mp h
      have hnone : byteDecoder cp = none := by simpa using hcp
      rw [byteDecode_next (utf8Next_append hnext hnone y), hnone]
      exact ih rest.length (utf8Next_shorter hnext) rest hrest rfl

variable {T : BpeTokenizer}

theorem decode_one (T : BpeTokenizer) (id : Int) : T.decode [id] =
    if 0 ≤ id ∧ id.toNat < T.idToToken.length then T.spelling (T.idToToken.getD id.toNat []) else [] := by
  unfold decode spelling
  rw [decodeFrom]
  split
  · dsimp only
    split <;> simp [decodeFrom, byteDecode, codepoints, codepointsFrom]
  · simp [decodeFrom, byteDecode, codepoints, codepointsFrom]

/-- No character is read across two pieces; `merged` are those that are not yet flushed. -/
def JoinsFrom (T : BpeTokenizer) : Bytes → List Int → Prop
  | _, [] => True
  | merged, id :: ids =>
    if 0 ≤ id ∧ id.toNat < T.idToToken.length then
      let tok := T.idToToken.getD id.toNat []
      if T.isSpecial tok then JoinsFrom T [] ids
      else codepoints (merged ++ tok) = codepoints merged ++ codepoints tok ∧ JoinsFrom T (merged ++ tok) ids
    else JoinsFrom T merged ids

theorem bpe_joins : ∀ {ids : List Int} {merged : Bytes}, T.JoinsFrom merged ids →
    T.decodeFrom merged ids = byteDecode merged ++ ids.flatMap fun id => T.decode [id] := by
  intro ids
  induction ids with
  | nil => exact fun _ => (List.append_nil _).symm
  | cons id ids ih =>
    intro merged h
    rw [JoinsFrom] at h
    rw [decodeFrom, List.flatMap_cons, decode_one]
    by_cases hid : 0 ≤ id ∧ id.toNat < T.idToToken.length
    · rw [if_pos hid] at h
      rw [if_pos hid, if_pos hid, spelling]
      by_cases hsp : T.isSpecial (T.idToToken.getD id.toNat []) = true
      · simp only [hsp, if_true] at h ⊢
        rw [ih h]
        simp [byteDecode, codepoints, codepointsFrom]
      · simp only [hsp, if_false, Bool.false_eq_true] at h ⊢
        have hflush := congrArg (List.filterMap byteDecoder) h.1
        rw [List.filterMap_append] at hflush
        rw [ih h.2, byteDecode, hflush, List.append_assoc]
        rfl
    · rw [if_neg hid] at h
      rw [if_neg hid, if_neg hid, ih h, List.nil_append]

theorem codepoints_whole {s t : Bytes} (hs : Whole s) (ht : Whole t) : codepoints (s ++ t) = codepoints s ++ codepoints t := by
  obtain ⟨a, ha, rfl⟩ := hs
  obtain ⟨b, hb, rfl⟩ := ht
  have hab : ∀ cp ∈ a ++ b, cp < 2 ^ 21 := fun cp hcp => (List.mem_append.mp hcp).elim (ha cp) (hb cp)
  have hjoin : utf8FromCps a ++ utf8FromCps b = (a ++ b).flatMap utf8Encode := by simp [utf8FromCps]
  rw [hjoin, codepoints_encode _ hab]
  exact (congrArg₂ _ (codepoints_encode a ha) (codepoints_encode b hb)).symm

theorem bpe_whole_joins (hw : ∀ p ∈ T.idToToken, Whole p) : ∀ {ids : List Int} {merged : Bytes}, Whole merged → T.JoinsFrom merged ids := by
  intro ids
  induction ids with
  | nil => exact fun _ => trivial
  | cons id ids ih =>
    intro merged hm
    rw [JoinsFrom]
    by_cases hid : 0 ≤ id ∧ id.toNat < T.idToToken.length
    · have htok : Whole (T.idToToken.getD id.toNat []) := by
        refine hw _ ?_
        rw [List.getD_eq_getElem?_getD, List.getElem?_eq_getElem hid.2]
        exact List.getElem_mem _
      rw [if_pos hid]
      dsimp only
      split
      · exact ih Whole.nil
      · exact ⟨codepoints_whole hm htok, ih (hm.append htok)⟩
    · rw [if_neg hid]
      exact ih hm

/-- After tokens that are read as nothing. -/
theorem decodeFrom_silent (t : Int) : ∀ {ids : List Int} {merged : Bytes}, byteDecode merged = [] → (∀ id ∈ ids, T.decode [id] = []) →
    T.decodeFrom merged (ids ++ [t]) = T.decode [t] := by
  intro ids
  induction ids with
  | nil =>
    intro merged hm _
    rw [List.nil_append, decode_one, decodeFrom]
    split
    · dsimp only [spelling]
      split
      · rw [hm, List.nil_append, decodeFrom]
        exact List.append_nil _
      · rw [decodeFrom, byteDecode_append_of_nil _ _ hm]
    · rw [decodeFrom, hm]
  | cons id ids ih =>
    intro merged hm h
    have hid := h id List.mem_cons_self
    have hrest := fun i hi => h i (List.mem_cons_of_mem _ hi)
    rw [decode_one] at hid
    rw [List.cons_append, decodeFrom]
    by_cases hin : 0 ≤ id ∧ id.toNat < T.idToToken.length
    · rw [if_pos hin, spelling] at hid
      rw [if_pos hin]
      by_cases hsp : T.isSpecial (T.idToToken.getD id.toNat []) = true
      · simp only [hsp, if_true] at hid ⊢
        rw [hm, hid, ih rfl hrest]
        rfl
      · simp only [hsp, if_false, Bool.false_eq_true] at hid ⊢
        exact ih (by rw [byteDecode_append_of_nil _ _ hm, hid]) hrest
    · rw [if_neg hin]
      exact ih hm hrest

end BpeTokenizer

/-! ## One token more -/

theorem unmark_eq_nil {s : Bytes} : unmark s = [] ↔ s = [] := by
  constructor
  · intro h
    induction s using mark_induction with
    | nil => rfl
    | mark r => simp [unmark_mark] at h
    | byte a r hno => simp [unmark_cons hno] at h
  · rintro rfl
    rfl

/-- Behind a text that is one space there is no mark but what comes. -/
theorem unmark_space_append {s : Bytes} (h : unmark s = [0x20]) (y : Bytes) : unmark (s ++ y) = 0x20 :: unmark y := by
  induction s using mark_induction with
  | nil => cases h
  | mark r =>
    rw [unmark_mark] at h
    rw [unmark_eq_nil.mp (List.cons.inj h).2, List.append_nil, unmark_mark]
  | byte a r hno =>
    rw [unmark_cons hno] at h
    obtain ⟨rfl, hr⟩ := List.cons.inj h
    rw [unmark_eq_nil.mp hr, List.singleton_append, unmark_cons]
    rw [spmSpace_eq]
    simp

theorem strip_eq_nil {v : Bytes} : strip v = [] ↔ v = [] ∨ v = [0x20] := by
  unfold strip
  split
  · next h =>
    obtain ⟨s, rfl⟩ := List.head?_eq_some_iff.mp h
    simp
  · next h =>
    refine ⟨.inl, fun hv => hv.elim id ?_⟩
    rintro rfl
    exact absurd rfl h

namespace ITokenizer

variable {tok : ITokenizer} {ids : List Int} {t : Int}

/-- Decoding the list reads no more and no less than decoding each token. -/
def Joins : ITokenizer → List Int → Prop
  | .simple T => fun ids => (ids.filter T.shown).length ≤ 1
  | .bpe T => T.JoinsFrom []
  | .spm T => T.Joins

/-- Every piece of a BPE vocabulary is whole characters. -/
def WholePieces : ITokenizer → Prop
  | .bpe T => ∀ p ∈ T.idToToken, Whole p
  | _ => True

/-- The token has a text of its own. -/
def Shows : ITokenizer → Int → Prop
  | .simple T => fun id => T.shown id = true
  | .bpe T => fun id => T.decode [id] ≠ []
  | .spm T => fun id => T.spelled id ≠ []

theorem joins_decode (h : tok.Joins ids) : ids.flatMap (fun id => tok.decode [id]) = tok.decode ids := by
  cases tok with
  | simple T => exact (SimpleTokenizer.simple_joins_iff T ids).mpr h
  | bpe T => exact (BpeTokenizer.bpe_joins h).symm
  | spm T => exact (SpmTokenizer.spm_joins_iff T ids).mpr h

theorem decode_joins (hw : tok.WholePieces) (h : ids.flatMap (fun id => tok.decode [id]) = tok.decode ids) : tok.Joins ids := by
  cases tok with
  | simple T => exact (SimpleTokenizer.simple_joins_iff T ids).mp h
  | bpe T => exact BpeTokenizer.bpe_whole_joins hw Whole.nil
  | spm T => exact (SpmTokenizer.spm_joins_iff T ids).mp h

/-- After tokens whose text is empty, the next adds none when it has none, or they have none and its own is empty. -/
theorem decode_snoc_nil_iff (hjoin : ids.flatMap (fun id => tok.decode [id]) = tok.decode ids) (hnil : ∀ id ∈ ids, tok.decode [id] = []) :
    tok.decode (ids ++ [t]) = [] ↔ ¬ tok.Shows t ∨ (∀ id ∈ ids, ¬ tok.Shows id) ∧ tok.decode [t] = [] := by
  cases tok with
  | bpe T =>
    have hsilent : T.decode (ids ++ [t]) = T.decode [t] := BpeTokenizer.decodeFrom_silent t rfl hnil
    show T.decode (ids ++ [t]) = [] ↔ ¬ T.decode [t] ≠ [] ∨ (∀ id ∈ ids, ¬ T.decode [id] ≠ []) ∧ T.decode [t] = []
    rw [hsilent, not_not]
    exact ⟨.inl, fun h => h.elim id And.right⟩
  | simple T =>
    have hone := (SimpleTokenizer.simple_joins_iff T ids).mp hjoin
    show T.decode (ids ++ [t]) = [] ↔ ¬ T.shown t = true ∨ (∀ id ∈ ids, ¬ T.shown id = true) ∧ T.decode [t] = []
    have hempty : T.decode ids = [] := by
      rw [← show ids.flatMap (fun id => T.decode [id]) = T.decode ids from hjoin]
      exact List.flatMap_eq_nil_iff.mpr hnil
    unfold SimpleTokenizer.decode at hempty ⊢
    rw [List.filter_append]
    by_cases ht : T.shown t = true
    · rcases hs : ids.filter T.shown with _ | ⟨id, _ | ⟨id', rest⟩⟩
      · have hall := List.filter_eq_nil_iff.mp hs
        simp only [ht, List.filter_cons_of_pos, List.filter_nil, List.nil_append, not_true_eq_false, false_or]
        exact ⟨fun h => ⟨hall, h⟩, And.right⟩
      · refine iff_of_false (fun h => ?_) ?_
        · have hlen := congrArg List.length h
          rw [length_intercalate] at hlen
          simp [ht] at hlen
        · rintro (hno | ⟨hall, -⟩)
          · exact hno ht
          · rw [List.filter_eq_nil_iff.mpr hall] at hs
            cases hs
      · simp [hs] at hone
    · simp [ht, hempty]
  | spm T =>
    show T.decode (ids ++ [t]) = [] ↔ ¬ T.spelled t ≠ [] ∨ (∀ id ∈ ids, ¬ T.spelled id ≠ []) ∧ T.decode [t] = []
    have hempty : T.decode ids = [] := by
      rw [← show ids.flatMap (fun id => T.decode [id]) = T.decode ids from hjoin]
      exact List.flatMap_eq_nil_iff.mpr hnil
    have hnone : (∀ id ∈ ids, ¬ T.spelled id ≠ []) ↔ ids.flatMap T.spelled = [] := by
      rw [List.flatMap_eq_nil_iff]
      simp
    rw [hnone, T.decode_one, SpmTokenizer.decode_eq, List.flatMap_append, List.flatMap_singleton, not_not]
    rw [SpmTokenizer.decode_eq, strip_eq_nil] at hempty
    rcases hempty with hr | hr
    · have hraw := unmark_eq_nil.mp hr
      rw [hraw, List.nil_append]
      constructor
      · exact fun h => .inr ⟨rfl, h⟩
      · rintro (h | ⟨-, h⟩)
        · rw [h]
          rfl
        · exact h
    · have hraw : ids.flatMap T.spelled ≠ [] := by
        intro he
        rw [he] at hr
        cases hr
      rw [unmark_space_append hr]
      simp [strip, unmark_eq_nil, hraw]

end ITokenizer

end Uaii.Tokenizers
