/-
  Uaii.Tokenizers.ChatBos — the beginning of a chat prompt
  (`format_chat_prompt` of `chat_template.cpp` before `ITokenizer::encode`).

  The `llama3` and `mistral` templates write the BOS piece as text, and a tokenizer that
  adds BOS writes its id: the text is cut into parts (`parts`), each of which is an entry of
  the vocabulary or unknown.

  Proved: the ids of a prompt have BOS once, at index 0, exactly when no part of it is the
  BOS piece, none is unknown where BOS is what stands for that, and BOS is not what ends a
  text (`bos_once_iff`). A registered BOS piece is a part of every prompt of its template
  (`registered_twice`), and so it is of one that is cut at its first mark (`spm_twice`).
-/

import Uaii.Tokenizers.SimpleTokenizer

namespace Uaii.Tokenizers

/-! ## The parts of a text -/

namespace BpeTokenizer

variable (T : BpeTokenizer)

def pieceParts (piece : Bytes) : List Bytes := if (T.idOf piece).isSome then [piece] else T.segments piece

def chunkParts (chunk : Bytes) : List Bytes :=
  if T.pretokenize then (gpt2RegexSplit chunk).flatMap T.pieceParts else T.pieceParts chunk

/-- The scan of `encode`, with the parts for their ids. -/
def partsFrom : Nat → Bytes → List Bytes
  | 0, _ => []
  | fuel + 1, s =>
    match s with
    | [] => []
    | c :: rest =>
      match T.specialAt (c :: rest) with
      | some sp => sp :: partsFrom fuel ((c :: rest).drop sp.length)
      | none =>
        let j := T.beforeSpecial rest
        T.chunkParts (c :: rest.take j) ++ partsFrom fuel (rest.drop j)

/-- The text that is scanned. -/
def work (text : Bytes) : Bytes :=
  if T.pretokenize && T.addPrefixSpace && T.marked text ≠ [] && (T.marked text).head? ≠ some 0x20 &&
      !T.specialTokens.any (·.isPrefixOf (T.marked text)) then 0x20 :: T.marked text
  else T.marked text

def parts (text : Bytes) : List Bytes := T.partsFrom (T.work text).length (T.work text)

theorem pieceParts_ids (piece : Bytes) : T.bpeEncodePiece piece = (T.pieceParts piece).map fun w => (T.idOf w).getD 0 := by
  unfold bpeEncodePiece pieceParts
  cases hid : T.idOf piece <;> simp [hid]

theorem chunkParts_ids (chunk : Bytes) : T.encodeChunk chunk = (T.chunkParts chunk).map fun w => (T.idOf w).getD 0 := by
  unfold encodeChunk chunkParts
  split
  · rw [List.map_flatMap]
    exact List.flatMap_congr fun piece _ => T.pieceParts_ids piece
  · exact T.pieceParts_ids chunk

theorem partsFrom_ids : ∀ (fuel : Nat) (s : Bytes), T.encodeFrom fuel s = (T.partsFrom fuel s).map fun w => (T.idOf w).getD 0
  | 0, _ => rfl
  | fuel + 1, [] => rfl
  | fuel + 1, c :: rest => by
    rw [encodeFrom, partsFrom]
    cases T.specialAt (c :: rest) with
    | some sp => simp only [List.map_cons, partsFrom_ids fuel]
    | none => simp only [List.map_append, chunkParts_ids, partsFrom_ids fuel]

theorem encode_parts (text : Bytes) : T.encode text = T.bosIds ++ (T.parts text).map fun w => (T.idOf w).getD 0 := by
  rw [parts, ← partsFrom_ids]
  rfl

end BpeTokenizer

namespace SpmTokenizer

variable {T : SpmTokenizer} {tokens : List Bytes} {bosId eosId unkId : Int} {addBos addEos : Bool}

theorem le_foldl_max (tokens : List Bytes) : ∀ m, m ≤ tokens.foldl (fun m t => max m t.length) m ∧
    ∀ t ∈ tokens, t.length ≤ tokens.foldl (fun m t => max m t.length) m := by
  induction tokens with
  | nil => exact fun m => ⟨Nat.le_refl m, by simp⟩
  | cons t tokens ih =>
    intro m
    obtain ⟨hm, hts⟩ := ih (max m t.length)
    refine ⟨(Nat.le_max_left ..).trans hm, fun t' ht' => ?_⟩
    rcases List.mem_cons.mp ht' with rfl | ht'
    · exact (Nat.le_max_right ..).trans hm
    · exact hts t' ht'

/-- No piece is longer than the longest. -/
theorem idOf_length (h : loadFromGgufTokens tokens bosId eosId unkId addBos addEos = .ok T) {piece : Bytes} {id : Int}
    (hid : T.idOf piece = some id) : piece.length ≤ T.maxPieceLen := by
  obtain ⟨-, hget⟩ := idOf_get h hid
  unfold loadFromGgufTokens at h
  split at h
  · exact absurd h (fail_ne_ok _ _ _)
  cases h
  exact (le_foldl_max tokens 0).2 piece (List.mem_of_getElem? hget)

theorem longestPiece_none {s : Bytes} : ∀ {n : Nat}, T.longestPiece s n = none → ∀ len, 0 < len → len ≤ n → T.idOf (s.take len) = none := by
  intro n
  induction n with
  | zero => intro _ len hpos hle; omega
  | succ n ih =>
    intro h len hpos hle
    rw [longestPiece] at h
    cases hid : T.idOf (s.take (n + 1)) with
    | some i => simp [hid] at h
    | none =>
      simp only [hid] at h
      rcases Nat.lt_or_ge n len with hlt | hge
      · rw [show len = n + 1 by omega]
        exact hid
      · exact ih h len hpos hge

/-- A part has its own id, or the unknown one. -/
theorem cutFrom_ids (h : loadFromGgufTokens tokens bosId eosId unkId addBos addEos = .ok T) :
    ∀ {fuel : Nat} {s : Bytes}, ∀ part ∈ T.cutFrom fuel s, part.2 = (T.idOf part.1).getD T.unkId := by
  intro fuel
  induction fuel with
  | zero => intro s part hpart; cases hpart
  | succ fuel ih =>
    intro s part hpart
    rcases s with _ | ⟨c, rest⟩
    · cases hpart
    rw [cutFrom] at hpart
    cases hp : T.longestPiece (c :: rest) (min T.maxPieceLen (c :: rest).length) with
    | some p =>
      rcases p with ⟨len, id⟩
      rcases longestPiece_some hp with ⟨-, -, hid⟩
      simp only [hp] at hpart
      rcases List.mem_cons.mp hpart with rfl | hpart
      · simp [hid]
      · exact ih part hpart
    | none =>
      simp only [hp] at hpart
      rcases List.mem_cons.mp hpart with rfl | hpart
      · have hnone : T.idOf [c] = none := by
          cases hid : T.idOf [c] with
          | none => rfl
          | some id =>
            have hle := idOf_length h hid
            have hno := longestPiece_none hp 1 (by omega) (by simp at hle ⊢; omega)
            rw [List.take_succ_cons, List.take_zero, hid] at hno
            cases hno
        simp [hnone]
      · exact ih part hpart

end SpmTokenizer

namespace ITokenizer

def bosId : ITokenizer → Int
  | .simple T => T.bosId
  | .bpe T => T.bosId
  | .spm T => T.bosId

def idOf : ITokenizer → Bytes → Option Int
  | .simple T => T.idOf
  | .bpe T => T.idOf
  | .spm T => T.idOf

/-- What stands for an unknown part. -/
def unknownId : ITokenizer → Int
  | .simple T => T.unkId
  | .bpe _ => 0
  | .spm T => T.unkId

/-- What a text is cut into. -/
def parts : ITokenizer → Bytes → List Bytes
  | .simple _ => SimpleTokenizer.words []
  | .bpe T => T.parts
  | .spm T => fun text => (T.cut text).map (·.1)

/-- A tokenizer as it is loaded. -/
def Loaded : ITokenizer → Prop
  | .simple _ => True
  | .bpe _ => True
  | .spm T => ∃ tokens bosId eosId unkId addBos addEos, SpmTokenizer.loadFromGgufTokens tokens bosId eosId unkId addBos addEos = .ok T

theorem content_parts {tok : ITokenizer} (h : tok.Loaded) (text : Bytes) :
    tok.content text = (tok.parts text).map fun w => (tok.idOf w).getD tok.unknownId := by
  cases tok with
  | simple T => rfl
  | bpe T =>
    show (T.encode text).drop T.bosIds.length = _
    rw [T.encode_parts, List.drop_left]
    rfl
  | spm T =>
    obtain ⟨_, _, _, _, _, _, hload⟩ := h
    show (T.cut text).map (·.2) = ((T.cut text).map (·.1)).map _
    rw [List.map_map]
    exact List.map_congr_left fun part hpart => SpmTokenizer.cutFrom_ids hload part hpart

/-- The tokenizer adds BOS, and the piece of that id is `piece`. -/
structure AddsBos (tok : ITokenizer) (piece : Bytes) : Prop where
  loaded : tok.Loaded
  opens : tok.opening = [tok.bosId]
  piece : ∀ w, tok.idOf w = some tok.bosId ↔ w = piece

def BosOnce (tok : ITokenizer) (text : Bytes) : Prop :=
  (tok.encode text).head? = some tok.bosId ∧ (tok.encode text).count tok.bosId = 1

/-- Nothing in the text becomes the BOS id, and nothing after it does. -/
structure BosApart (tok : ITokenizer) (piece text : Bytes) : Prop where
  uncut : piece ∉ tok.parts text
  known : tok.unknownId = tok.bosId → ∀ w ∈ tok.parts text, (tok.idOf w).isSome
  ending : tok.bosId ∉ tok.closing

theorem bosOnce_iff {tok : ITokenizer} {piece : Bytes} (h : tok.AddsBos piece) (text : Bytes) :
    tok.BosOnce text ↔ tok.BosApart piece text := by
  have hid : ∀ w, (tok.idOf w).getD tok.unknownId = tok.bosId ↔ w = piece ∨ tok.idOf w = none ∧ tok.unknownId = tok.bosId := by
    intro w
    rw [← h.piece w]
    cases tok.idOf w <;> simp
  have hcount : tok.BosOnce text ↔ tok.bosId ∉ tok.content text ∧ tok.bosId ∉ tok.closing := by
    unfold BosOnce
    rw [tok.encode_eq, h.opens]
    simp [List.count_eq_zero]
  have hcontent : tok.bosId ∉ tok.content text ↔
      piece ∉ tok.parts text ∧ (tok.unknownId = tok.bosId → ∀ w ∈ tok.parts text, (tok.idOf w).isSome) := by
    rw [content_parts h.loaded, List.mem_map]
    constructor
    · intro hno
      refine ⟨fun hp => hno ⟨piece, hp, (hid piece).mpr (.inl rfl)⟩, fun hunk w hw => ?_⟩
      by_contra hnone
      exact hno ⟨w, hw, (hid w).mpr (.inr ⟨by simpa using hnone, hunk⟩)⟩
    · rintro ⟨hp, hunk⟩ ⟨w, hw, he⟩
      rcases (hid w).mp he with rfl | ⟨hnone, hb⟩
      · exact hp hw
      · simpa [hnone] using hunk hb w hw
  rw [hcount, hcontent]
  exact ⟨fun ⟨⟨hp, hunk⟩, hend⟩ => ⟨hp, hunk, hend⟩, fun ha => ⟨⟨ha.uncut, ha.known⟩, ha.ending⟩⟩

end ITokenizer

/-! ## The text of a template -/

/-- What the template's text begins with, where that is a BOS piece. -/
def openingText (chatTemplate : Bytes) : Option Bytes :=
  match familyOf chatTemplate with
  | .llama3 => some (rawBytes "<|begin_of_text|>")
  | .mistral => some (rawBytes "<s>")
  | _ => none

section Opening

variable {chatTemplate piece : Bytes} (system user : Bytes)

theorem openingText_cases (h : openingText chatTemplate = some piece) :
    familyOf chatTemplate = .llama3 ∧ piece = rawBytes "<|begin_of_text|>" ∨ familyOf chatTemplate = .mistral ∧ piece = rawBytes "<s>" := by
  unfold openingText at h
  split at h
  · next hf => exact .inl ⟨hf, (Option.some.inj h).symm⟩
  · next hf => exact .inr ⟨hf, (Option.some.inj h).symm⟩
  · cases h

theorem prompt_opens (h : openingText chatTemplate = some piece) (hraw : looksPreformatted user = false) :
    ∃ rest, formatChatPrompt chatTemplate system user = piece ++ rest := by
  have hpieces : ∀ ms, ∃ rest, joined (chatPieces chatTemplate ms) = piece ++ rest := by
    intro ms
    unfold chatPieces
    rcases readMessages ms ([], []) with ⟨sys, turns⟩
    rcases openingText_cases h with ⟨hf, rfl⟩ | ⟨hf, rfl⟩
    · rw [hf]
      exact ⟨_, rfl⟩
    · rw [hf]
      exact ⟨_, rfl⟩
  have hformat : ∀ ms, preformatted ms = false → ∃ rest, formatChatMessages chatTemplate ms = piece ++ rest := by
    intro ms hms
    unfold formatChatMessages
    rw [if_neg (by simp [hms])]
    exact hpieces ms
  unfold formatChatPrompt
  rw [if_neg (by simp [hraw])]
  refine hformat _ ?_
  by_cases hs : system = []
  · simp [hs, preformatted, hraw]
  · simp [hs, preformatted]

theorem openingText_ne_nil (h : openingText chatTemplate = some piece) : piece ≠ [] := by
  rcases openingText_cases h with ⟨-, rfl⟩ | ⟨-, rfl⟩ <;> decide

/-- Where the BOS piece is a registered token, and no longer one starts as the prompt does, every prompt of the template has BOS twice. -/
theorem registered_twice {T : BpeTokenizer} (h : (ITokenizer.bpe T).AddsBos piece) (hopen : openingText chatTemplate = some piece)
    (hraw : looksPreformatted user = false) (hok : BpeTokenizer.SpecialsOk T.specialTokens) (hmem : piece ∈ T.specialTokens)
    (hmeta : T.metaspace = [])
    (hlong : ∀ sp ∈ T.specialTokens, sp <+: formatChatPrompt chatTemplate system user → sp.length ≤ piece.length) :
    ¬ (ITokenizer.bpe T).BosOnce (formatChatPrompt chatTemplate system user) := by
  intro honce
  apply ((ITokenizer.bosOnce_iff h _).mp honce).uncut
  obtain ⟨rest, hrest⟩ := prompt_opens system user hopen hraw
  rw [hrest] at hlong ⊢
  have hwork : T.work (piece ++ rest) = piece ++ rest := by
    have hany : T.specialTokens.any (·.isPrefixOf (piece ++ rest)) = true := List.any_eq_true.mpr ⟨piece, hmem, by simp⟩
    simp [BpeTokenizer.work, BpeTokenizer.marked, hmeta, hany]
  have hat : T.specialAt (piece ++ rest) = some piece := by
    have hid : (T.idOf piece).isSome := by
      have := (h.piece piece).mpr rfl
      exact Option.isSome_iff_exists.mpr ⟨_, this⟩
    exact BpeTokenizer.specialAt_longest hok hmem hid (List.prefix_append _ _) fun sp hsp hpre => hlong sp hsp hpre
  show piece ∈ T.parts (piece ++ rest)
  obtain ⟨c, cs, hc⟩ := List.exists_cons_of_ne_nil (openingText_ne_nil hopen)
  rw [BpeTokenizer.parts, hwork]
  rw [hc] at hat ⊢
  rw [List.cons_append] at hat ⊢
  rw [List.length_cons, BpeTokenizer.partsFrom, hat]
  exact List.mem_cons_self

/-- Where the mark in front of the text and the BOS piece are the longest matches, every prompt of the template has BOS twice. -/
theorem spm_twice {T : SpmTokenizer} (h : (ITokenizer.spm T).AddsBos piece) (hopen : openingText chatTemplate = some piece)
    (hraw : looksPreformatted user = false) {s : Bytes} (hs : s = markSpaces (formatChatPrompt chatTemplate system user))
    {markId bosId : Int} (hmark : T.longestPiece (spmSpace ++ s) (min T.maxPieceLen (spmSpace ++ s).length) = some (spmSpace.length, markId))
    (hbos : T.longestPiece s (min T.maxPieceLen s.length) = some (piece.length, bosId)) :
    ¬ (ITokenizer.spm T).BosOnce (formatChatPrompt chatTemplate system user) := by
  intro honce
  apply ((ITokenizer.bosOnce_iff h _).mp honce).uncut
  have hspace : (0x20 : UInt8) ∉ piece := by
    rcases openingText_cases hopen with ⟨-, rfl⟩ | ⟨-, rfl⟩ <;> decide
  obtain ⟨rest, hrest⟩ := prompt_opens system user hopen hraw
  have htext : s = piece ++ markSpaces rest := by
    rw [hs, hrest, markSpaces, List.flatMap_append]
    exact congrArg (· ++ _) (markSpaces_unmarked hspace)
  obtain ⟨c, cs, hc⟩ : ∃ c cs, s = c :: cs := by
    obtain ⟨c, cs, hc⟩ := List.exists_cons_of_ne_nil (openingText_ne_nil hopen)
    exact ⟨c, cs ++ markSpaces rest, by rw [htext, hc, List.cons_append]⟩
  have hcut : T.cut (formatChatPrompt chatTemplate system user) = T.cutFrom (spmSpace ++ s).length (spmSpace ++ s) := by
    rw [hs]
    rfl
  show piece ∈ (T.cut (formatChatPrompt chatTemplate system user)).map (·.1)
  rw [hcut]
  have hnext : ∃ fuel, T.cutFrom (spmSpace ++ s).length (spmSpace ++ s) = (spmSpace, markId) :: T.cutFrom (fuel + 1) s := by
    refine ⟨cs.length + 2, ?_⟩
    rw [spmSpace_eq] at hmark ⊢
    show T.cutFrom (s.length + 3) _ = _
    rw [hc] at hmark ⊢
    simp only [List.cons_append, List.nil_append] at hmark ⊢
    rw [List.length_cons, SpmTokenizer.cutFrom, hmark]
    rfl
  obtain ⟨fuel, hnext⟩ := hnext
  have htake : s.take piece.length = piece := by rw [htext, List.take_left]
  rw [hnext, hc, SpmTokenizer.cutFrom, ← hc, hbos]
  simp [htake]

end Opening

theorem find_piece_iff {entries : List (Bytes × Int)} {piece : Bytes} {id : Int} (honly : ∀ e ∈ entries, e.2 = id → e.1 = piece)
    (hid : (entries.find? (·.1 == piece)).map (·.2) = some id) (w : Bytes) :
    (entries.find? (·.1 == w)).map (·.2) = some id ↔ w = piece := by
  constructor
  · intro h
    obtain ⟨e, he, heid⟩ := Option.map_eq_some_iff.mp h
    have hw : e.1 = w := by simpa using List.find?_some he
    rw [← hw]
    exact honly e (List.mem_of_find?_eq_some he) heid
  · rintro rfl
    exact hid

/-- `<unk>`, `<s>`, `</s>` and `▁<`. -/
def guardedTokens : List Bytes := SpmTokenizer.controlTokens ++ [[0xE2, 0x96, 0x81, 0x3C]]

theorem guardedTokens_addsBos : (ITokenizer.spm (SpmTokenizer.ofTokens guardedTokens)).AddsBos (rawBytes "<s>") := by
  refine ⟨⟨guardedTokens, 1, 2, 0, true, false, SpmTokenizer.ofTokens_loads (by simp [guardedTokens])⟩, rfl, fun w => ?_⟩
  exact find_piece_iff (by decide) (by decide) w

/-- The BOS piece of `llama3`, after a token that is in no text. -/
def llama3Tokenizer : BpeTokenizer := { BpeTokenizer.ofTokens [[0x00], rawBytes "<|begin_of_text|>"] with addBos := true, bosId := 1 }

end Uaii.Tokenizers
