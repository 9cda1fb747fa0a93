/-
  Uaii.Tokenizers.Bpe — `BpeTokenizer` (`include/uaii/tokenizers/bpe_tokenizer.hpp`,
  `libs/uaii-tokenizers/src/bpe_tokenizer.cpp`), from a loaded vocabulary on.

  Strings are their bytes. `token_to_id_` is a list of pairs of which the first counts;
  `std::sort` of the special tokens is a stable sort, as two specials of one length are
  never both at one place. `encode` and `decode` fail only on a null output, so they are
  total here. `load`, which reads the same vocabulary from files, is left out.

  Proved: what the loader establishes (`loadFromVocabMerges_consistent`), and when a piece
  is segmented as by the reference algorithm (`bpe_segments_iff`).
-/

import Uaii.Core.Error
import Uaii.Lib.Merges
import Uaii.Tokenizers.Utf8

namespace Uaii.Tokenizers

open Merges (Merge mergePass reference Ascending)

/-! ## Bytes and the characters they are written as -/

/-- The bytes written as themselves: `bs` before the loop. -/
def printableBytes : List Nat := List.range' 33 94 ++ List.range' 161 12 ++ List.range' 174 82

def otherBytes : List Nat := (List.range 256).filter (· ∉ printableBytes)

/-- `bs` and `cs`, paired. -/
def byteTable : List (Nat × Nat) := printableBytes.map (fun b => (b, b)) ++ otherBytes.zipIdx.map fun e => (e.1, 256 + e.2)

/-- `byte_encoder_`. -/
def byteEncoder (b : UInt8) : Nat := ((byteTable.find? (·.1 == b.toNat)).map (·.2)).getD 0

/-- `byte_decoder_`. -/
def byteDecoder (cp : Nat) : Option UInt8 := (byteTable.find? (·.2 == cp)).map fun e => .ofNat e.1

/-- A byte's symbol. -/
def byteSymbol (b : UInt8) : Bytes := utf8Encode (byteEncoder b)

/-! ## Cutting a text into pieces -/

def isUnicodeLetter (c : Nat) : Bool :=
  (0x41 ≤ c && c ≤ 0x5A) || (0x61 ≤ c && c ≤ 0x7A) || (0x00C0 ≤ c && c ≤ 0x02AF) || (0x0370 ≤ c && c ≤ 0x03FF) ||
  (0x0400 ≤ c && c ≤ 0x052F) || (0x0590 ≤ c && c ≤ 0x05FF) || (0x0600 ≤ c && c ≤ 0x06FF) ||
  (0x0900 ≤ c && c ≤ 0x097F) || (0x0E00 ≤ c && c ≤ 0x0E7F) || (0x1E00 ≤ c && c ≤ 0x1EFF) ||
  (0x2C60 ≤ c && c ≤ 0x2C7F) || (0x3040 ≤ c && c ≤ 0x30FF) || (0x3400 ≤ c && c ≤ 0x9FFF) ||
  (0xAC00 ≤ c && c ≤ 0xD7AF) || (0xF900 ≤ c && c ≤ 0xFAFF) || (0xFF21 ≤ c && c ≤ 0xFF3A) ||
  (0xFF41 ≤ c && c ≤ 0xFF5A)

def isUnicodeDigit (c : Nat) : Bool := (0x30 ≤ c && c ≤ 0x39) || (0xFF10 ≤ c && c ≤ 0xFF19)

def isUnicodeSpace (c : Nat) : Bool := c ∈ [0x20, 0x09, 0x0A, 0x0D, 0x0C, 0x00A0, 0x3000]

/-- Neither letter, digit nor space. -/
def isOther (c : Nat) : Bool := !isUnicodeSpace c && !isUnicodeLetter c && !isUnicodeDigit c

/-- `eq` of `contraction_len`: the letter `b`, in either case. -/
def isCased (a : Nat) (b : Char) : Bool := (if 0x41 ≤ a ∧ a ≤ 0x5A then a - 0x41 + 0x61 else a) == b.toNat

def contractionLen : List Nat → Nat
  | 0x27 :: c :: cps =>
    if isCased c 's' || isCased c 't' || isCased c 'm' || isCased c 'd' then 2
    else match cps with
      | d :: _ =>
        if (isCased c 'r' && isCased d 'e') || (isCased c 'v' && isCased d 'e') || (isCased c 'l' && isCased d 'l') then 3
        else 0
      | [] => 0
  | _ => 0

/-- How many code points from `cps`'s start satisfy `p`, after `q`. -/
def runFrom (p : Nat → Bool) (cps : List Nat) (q : Nat) : Nat := q + ((cps.drop q).takeWhile p).length

/-- One turn of the loop of `gpt2_regex_split`: the length of the piece at the start of `cps`. -/
def pieceLen (cps : List Nat) : Nat :=
  if contractionLen cps ≠ 0 then contractionLen cps
  else
    let at' := fun (p : Nat → Bool) (i : Nat) => (cps[i]?.map p).getD false
    -- an optional single leading space
    let q := if at' isUnicodeSpace 0 && at' (!isUnicodeSpace ·) 1 then 1 else 0
    if at' isUnicodeLetter q then runFrom isUnicodeLetter cps q
    else if at' isUnicodeDigit q then runFrom isUnicodeDigit cps q
    else if at' isOther q then runFrom isOther cps q
    else runFrom isUnicodeSpace cps 0

def piecesFrom : Nat → List Nat → List (List Nat)
  | 0, _ => []
  | fuel + 1, cps =>
    match cps with
    | [] => []
    | _ => cps.take (pieceLen cps) :: piecesFrom fuel (cps.drop (pieceLen cps))

/-- `utf8_from_cps`. -/
def utf8FromCps (cps : List Nat) : Bytes := cps.flatMap utf8Encode

def gpt2RegexSplit (text : Bytes) : List Bytes :=
  (piecesFrom (codepoints text).length (codepoints text)).map utf8FromCps

/-! ## The tokenizer -/

structure BpeTokenizer where
  tokenToId : List (Bytes × Int)
  idToToken : List Bytes
  merges : List (Merge UInt8)
  specialTokens : List Bytes
  addPrefixSpace : Bool
  pretokenize : Bool
  addBos : Bool
  bosId : Int
  metaspace : Bytes

namespace BpeTokenizer

/-- A new tokenizer. -/
def empty : BpeTokenizer := ⟨[], [], [], [], false, false, false, -1, []⟩

def idOf (T : BpeTokenizer) (token : Bytes) : Option Int := (T.tokenToId.find? (·.1 == token)).map (·.2)

/-- `<|…|>`, of at least `n` bytes. -/
def controlLike (n : Nat) (t : Bytes) : Bool :=
  n ≤ t.length && (utf8FromCps [0x3C, 0x7C]).isPrefixOf t && (utf8FromCps [0x7C, 0x3E]).isSuffixOf t

def sortSpecials (ts : List Bytes) : List Bytes := ts.mergeSort fun a b => b.length ≤ a.length

def ensureSpecials (T : BpeTokenizer) : BpeTokenizer :=
  let extra := (T.tokenToId.map (·.1)).filter (controlLike 5)
  { T with specialTokens := sortSpecials (extra.foldl (fun ts t => if t ∈ ts then ts else ts ++ [t]) T.specialTokens) }

def registerSpecial (T : BpeTokenizer) (token : Bytes) : BpeTokenizer :=
  if token = [] then T
  else { T with specialTokens := sortSpecials (if token ∈ T.specialTokens then T.specialTokens else T.specialTokens ++ [token]) }

/-- A merge line: the two sides around its first space. -/
def parseMergeLine (line : Bytes) : Option (Merge UInt8) :=
  let a := line.takeWhile (· ≠ 0x20)
  if a.length = line.length then none else some (a, line.drop (a.length + 1))

def loadFromVocabMerges (T : BpeTokenizer) (tokens mergeLines : List Bytes) : Result BpeTokenizer :=
  if tokens = [] then fail .invalidArgument "empty gguf/bpe token list"
  else
    .ok (ensureSpecials
      { T with
        tokenToId := (tokens.zipIdx.map fun e => (e.1, (e.2 : Int))).reverse
        idToToken := tokens
        merges := mergeLines.filterMap parseMergeLine })

/-- The bytes of a piece, each as its symbol. -/
def byteWord (piece : Bytes) : List Bytes := piece.map byteSymbol

/-- The piece's symbols after the merges. -/
def segments (T : BpeTokenizer) (piece : Bytes) : List Bytes := mergePass T.merges (byteWord piece)

def bpeEncodePiece (T : BpeTokenizer) (piece : Bytes) : List Int :=
  match T.idOf piece with
  | some id => [id]
  | none => (T.segments piece).map fun w => (T.idOf w).getD 0

/-- The special token at the start of `s`. -/
def specialAt (T : BpeTokenizer) (s : Bytes) : Option Bytes :=
  T.specialTokens.find? fun sp => sp.isPrefixOf s && (T.idOf sp).isSome

/-- The bytes before the next special token. -/
def beforeSpecial (T : BpeTokenizer) : Bytes → Nat
  | [] => 0
  | c :: s => if (T.specialAt (c :: s)).isSome then 0 else T.beforeSpecial s + 1

def encodeChunk (T : BpeTokenizer) (chunk : Bytes) : List Int :=
  if T.pretokenize then (gpt2RegexSplit chunk).flatMap T.bpeEncodePiece else T.bpeEncodePiece chunk

def encodeFrom (T : BpeTokenizer) : Nat → Bytes → List Int
  | 0, _ => []
  | fuel + 1, s =>
    match s with
    | [] => []
    | c :: rest =>
      match T.specialAt (c :: rest) with
      | some sp => (T.idOf sp).getD 0 :: T.encodeFrom fuel ((c :: rest).drop sp.length)
      | none =>
        let j := T.beforeSpecial rest
        T.encodeChunk (c :: rest.take j) ++ T.encodeFrom fuel (rest.drop j)

def encode (T : BpeTokenizer) (text : Bytes) : List Int :=
  let mapped := if T.metaspace = [] then text
    else (if text = [] then [] else T.metaspace) ++ text.flatMap fun c => if c = 0x20 then T.metaspace else [c]
  let work :=
    if T.pretokenize && T.addPrefixSpace && mapped ≠ [] && mapped.head? ≠ some 0x20 &&
        !T.specialTokens.any (·.isPrefixOf mapped) then 0x20 :: mapped
    else mapped
  (if T.addBos && 0 ≤ T.bosId then [T.bosId] else []) ++ T.encodeFrom work.length work

/-- The flush of `decode`: characters that stand for no byte are dropped. -/
def byteDecode (s : Bytes) : Bytes := (codepoints s).filterMap byteDecoder

def isSpecial (T : BpeTokenizer) (tok : Bytes) : Bool := tok ∈ T.specialTokens || controlLike 3 tok

/-- The loop of `decode`, with `merged` the tokens not yet flushed. -/
def decodeFrom (T : BpeTokenizer) (merged : Bytes) : List Int → Bytes
  | [] => byteDecode merged
  | id :: ids =>
    if 0 ≤ id ∧ id.toNat < T.idToToken.length then
      let tok := T.idToToken.getD id.toNat []
      if T.isSpecial tok then byteDecode merged ++ tok ++ T.decodeFrom [] ids
      else T.decodeFrom (merged ++ tok) ids
    else T.decodeFrom merged ids

def decode (T : BpeTokenizer) (tokens : List Int) : Bytes := T.decodeFrom [] tokens

/-! ## A loaded vocabulary -/

def InVocab (T : BpeTokenizer) (token : Bytes) : Prop := (T.idOf token).isSome

instance (T : BpeTokenizer) (token : Bytes) : Decidable (T.InVocab token) := inferInstanceAs (Decidable (_ = _))

/-- The two maps are inverse, and every control token is registered. -/
structure Consistent (T : BpeTokenizer) : Prop where
  ids : ∀ token id, T.idOf token = some id → 0 ≤ id ∧ T.idToToken[id.toNat]? = some token
  controls : ∀ token, T.InVocab token → controlLike 5 token → token ∈ T.specialTokens

theorem mem_sortSpecials {ts : List Bytes} {t : Bytes} : t ∈ sortSpecials ts ↔ t ∈ ts := List.mem_mergeSort

/-- What the loop over the control tokens adds. -/
theorem mem_foldl_insert {t : Bytes} : ∀ (extra ts : List Bytes),
    t ∈ extra.foldl (fun ts t => if t ∈ ts then ts else ts ++ [t]) ts ↔ t ∈ ts ∨ t ∈ extra := by
  intro extra
  induction extra with
  | nil => simp
  | cons e extra ih =>
    intro ts
    rw [List.foldl_cons, ih, List.mem_cons]
    by_cases he : e ∈ ts
    · rw [if_pos he]
      apply Iff.intro
      · exact fun h => h.imp_right .inr
      · intro h
        apply h.elim .inl
        intro h
        apply h.elim
        · exact fun h => .inl (h ▸ he)
        · exact .inr
    · rw [if_neg he]
      simp [or_assoc]

theorem idOf_mem {T : BpeTokenizer} {token : Bytes} {id : Int} (h : T.idOf token = some id) : (token, id) ∈ T.tokenToId := by
  obtain ⟨e, he, rfl⟩ := Option.map_eq_some_iff.mp h
  have htok : e.1 = token := by simpa using List.find?_some he
  rw [← htok]
  exact List.mem_of_find?_eq_some he

theorem loadFromVocabMerges_consistent {T T' : BpeTokenizer} {tokens mergeLines : List Bytes}
    (h : T.loadFromVocabMerges tokens mergeLines = .ok T') : T'.Consistent := by
  unfold loadFromVocabMerges at h
  split at h
  · exact absurd h (fail_ne_ok _ _ _)
  cases h
  refine ⟨fun token id hid => ?_, fun token hin hctl => ?_⟩
  · obtain ⟨e, he, heq⟩ := List.mem_map.mp (List.mem_reverse.mp (idOf_mem hid))
    obtain ⟨rfl, rfl⟩ := Prod.mk.inj heq
    refine ⟨Int.natCast_nonneg _, ?_⟩
    show tokens[(e.2 : Int).toNat]? = some e.1
    exact List.mem_zipIdx_iff_getElem?.mp he
  · obtain ⟨id, hid⟩ := Option.isSome_iff_exists.mp hin
    refine mem_sortSpecials.mpr ((mem_foldl_insert _ _).mpr (.inr ?_))
    exact List.mem_filter.mpr ⟨List.mem_map.mpr ⟨(token, id), idOf_mem hid, rfl⟩, hctl⟩

/-! ## The merges of a piece -/

/-- The pass over the merges is the reference wherever the reference never falls back to a lower rank; for a
    list without a repeated pair, it is on every piece only then. -/
theorem segments_reference_iff (merges : List (Merge UInt8)) :
    (∀ T : BpeTokenizer, T.merges = merges → ∀ piece, ¬ T.InVocab piece → Ascending merges 0 (byteWord piece) →
      T.segments piece = reference merges (byteWord piece)) ∧
    (merges.Nodup →
      ((∀ T : BpeTokenizer, T.merges = merges → ∀ piece, ¬ T.InVocab piece →
          T.segments piece = reference merges (byteWord piece)) ↔
        ∀ piece, Ascending merges 0 (byteWord piece))) := by
  refine ⟨?_, fun hnd => ?_⟩
  · intro T hT piece _ hasc
    unfold segments
    rw [hT]
    exact Merges.mergePass_eq_reference hasc
  · have hpart : ∀ u v z : List Bytes, (∃ piece, byteWord piece = u ++ v ++ z) → ∃ piece, byteWord piece = v := by
      intro u v z h
      obtain ⟨piece, h⟩ := h
      obtain ⟨p, q, -, hp, -⟩ := List.map_eq_append_iff.mp h
      obtain ⟨u', v', -, -, hv⟩ := List.map_eq_append_iff.mp hp
      exact ⟨v', hv⟩
    have hiff := Merges.mergePass_eq_reference_iff (P := fun w => ∃ piece, byteWord piece = w) hnd hpart
    apply Iff.intro
    · intro hall piece
      refine hiff.mp (fun w hw => ?_) _ ⟨piece, rfl⟩
      obtain ⟨piece, rfl⟩ := hw
      exact hall { empty with merges := merges } rfl piece (show ¬ (none : Option Int).isSome = true by simp)
    · intro hasc T hT piece _
      unfold segments
      rw [hT]
      refine hiff.mpr (fun w hw => ?_) _ ⟨piece, rfl⟩
      obtain ⟨piece, rfl⟩ := hw
      exact hasc piece

/-- A merge list in which no merge makes a side of an earlier one. -/
theorem segments_reference_of_settled {T : BpeTokenizer} (hs : Merges.Settled T.merges) (piece : Bytes) :
    T.segments piece = reference T.merges (byteWord piece) :=
  Merges.mergePass_eq_reference (Merges.ascending_of_settled hs _)

/-- `ab`, then `abc` in two ways with `abcd` between them. -/
def lateMerges : List (Merge UInt8) :=
  [([0x62], [0x63]), ([0x61], [0x62]), ([0x61, 0x62], [0x63]), ([0x61, 0x62, 0x63], [0x64]), ([0x61], [0x62, 0x63])]

/-- The pass makes `abc` when `abcd`'s turn is over. -/
theorem late_merge_missed : Merges.Derivable (fun s => ∃ b, s = byteSymbol b) lateMerges ∧
    ¬ { empty with merges := lateMerges }.InVocab [0x61, 0x62, 0x63, 0x64] ∧
    { empty with merges := lateMerges }.segments [0x61, 0x62, 0x63, 0x64] = [[0x61, 0x62, 0x63], [0x64]] ∧
    reference lateMerges (byteWord [0x61, 0x62, 0x63, 0x64]) = [[0x61, 0x62, 0x63, 0x64]] := by
  refine ⟨?_, by decide, by decide +kernel, by decide +kernel⟩
  have hb : [0x62] = byteSymbol 0x62 := by decide +kernel
  have ha : [0x61] = byteSymbol 0x61 := by decide +kernel
  have hc : [0x63] = byteSymbol 0x63 := by decide +kernel
  have hd : [0x64] = byteSymbol 0x64 := by decide +kernel
  refine .snoc (.snoc (.snoc (.snoc (.snoc .nil ?_ ?_) ?_ ?_) ?_ ?_) ?_ ?_) ?_ ?_
  · exact .inl ⟨_, hb⟩
  · exact .inl ⟨_, hc⟩
  · exact .inl ⟨_, ha⟩
  · exact .inl ⟨_, hb⟩
  · exact .inr ⟨([0x61], [0x62]), by decide, rfl⟩
  · exact .inl ⟨_, hc⟩
  · exact .inr ⟨([0x61, 0x62], [0x63]), by decide, rfl⟩
  · exact .inl ⟨_, hd⟩
  · exact .inl ⟨_, ha⟩
  · exact .inr ⟨([0x62], [0x63]), by decide, rfl⟩

/-- With one merge nothing can fall back. -/
theorem single_merge_segments : { empty with merges := [([0x61], [0x62])] }.segments [0x61, 0x62] =
    reference [([0x61], [0x62])] (byteWord [0x61, 0x62]) :=
  (segments_reference_iff [([0x61], [0x62])]).1 { empty with merges := [([0x61], [0x62])] } rfl [0x61, 0x62] (by decide)
    (Merges.ascending_of_settled (.cons (by simp) .nil) _)

end BpeTokenizer

end Uaii.Tokenizers
