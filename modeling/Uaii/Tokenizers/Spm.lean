/-
  Uaii.Tokenizers.Spm — `SpmTokenizer` (`include/uaii/tokenizers/spm_tokenizer.hpp`,
  `libs/uaii-tokenizers/src/spm_tokenizer.cpp`).

  A text gets a mark `▁` in front and one for each space, and is cut by greedy longest match;
  a byte at which no piece starts becomes the unknown token. There is no fallback to the
  pieces `<0x00>` to `<0xFF>`, and `decode` drops every piece of the form `<…>`.

  Proved: a text comes back exactly when the tokens of its cut spell the marked text, or
  that without its first mark where the text starts with no space; with an unknown token that
  spells nothing, the first is that every part of the cut is a piece that is kept
  (`spm_round_trip_iff`).
-/

import Uaii.Lib.Lists
import Uaii.Tokenizers.HfTokenizer

namespace Uaii.Tokenizers

/-! ## Spaces and their marks -/

/-- `▁`. -/
def spmSpace : Bytes := utf8Encode 0x2581

/-- A mark for each space. -/
def markSpaces (s : Bytes) : Bytes := s.flatMap fun c => if c = 0x20 then spmSpace else [c]

def spmPreprocess (text : Bytes) : Bytes := spmSpace ++ markSpaces text

/-- The loop of `decode`: a space for each mark. -/
def unmark : Bytes → Bytes
  | a :: b :: c :: s => if [a, b, c] = spmSpace then 0x20 :: unmark s else a :: unmark (b :: c :: s)
  | s => s

def isSpecialPiece (piece : Bytes) : Bool := piece.head? = some 0x3C && piece.getLast? = some 0x3E

theorem unmark_cons {a : UInt8} {s : Bytes} (h : ¬ spmSpace <+: a :: s) : unmark (a :: s) = a :: unmark s := by
  rcases s with _ | ⟨b, _ | ⟨c, s⟩⟩
  · rfl
  · rfl
  · rw [unmark, if_neg]
    intro heq
    exact h ⟨s, by rw [← heq]; rfl⟩

theorem unmark_mark (s : Bytes) : unmark (spmSpace ++ s) = 0x20 :: unmark s := by
  have hs : spmSpace = [0xE2, 0x96, 0x81] := by decide
  rw [hs]
  show unmark (0xE2 :: 0x96 :: 0x81 :: s) = _
  rw [unmark, if_pos hs.symm]

theorem markSpaces_cons (c : UInt8) (s : Bytes) :
    markSpaces (c :: s) = (if c = 0x20 then spmSpace else [c]) ++ markSpaces s := List.flatMap_cons

theorem spmSpace_eq : spmSpace = [0xE2, 0x96, 0x81] := by decide

theorem markSpaces_mark (s : Bytes) : markSpaces (spmSpace ++ s) = spmSpace ++ markSpaces s := by
  unfold markSpaces
  rw [List.flatMap_append]
  congr 1

/-- A text starts with a mark or with a byte that starts none. -/
theorem mark_induction {P : Bytes → Prop} (nil : P []) (mark : ∀ r, P r → P (spmSpace ++ r))
    (byte : ∀ a r, ¬ spmSpace <+: a :: r → P r → P (a :: r)) (s : Bytes) : P s := by
  induction hn : s.length using Nat.strongRecOn generalizing s with
  | ind n ih =>
    subst hn
    by_cases h : spmSpace <+: s
    · rcases h with ⟨r, rfl⟩
      refine mark r (ih r.length ?_ r rfl)
      rw [List.length_append, spmSpace_eq]
      exact Nat.lt_add_of_pos_left (by simp)
    · rcases s with _ | ⟨a, r⟩
      · exact nil
      · exact byte a r h (ih r.length (by simp) r rfl)

theorem unmark_of_unmarked : ∀ {s : Bytes}, ¬ spmSpace <:+: s → unmark s = s := by
  intro s
  induction s with
  | nil => intro _; rfl
  | cons a s ih =>
    intro h
    rw [unmark_cons fun hp => h hp.isInfix, ih fun hi => h (hi.trans (List.suffix_cons a s).isInfix)]

theorem space_not_mem_mark (s : Bytes) : (0x20 : UInt8) ∉ markSpaces s := by
  intro h
  rcases List.mem_flatMap.mp h with ⟨c, -, hc⟩
  split at hc
  · exact absurd hc (by decide)
  · next hne => exact hne (List.mem_singleton.mp hc).symm

theorem markSpaces_unmarked {s : Bytes} (h : (0x20 : UInt8) ∉ s) : markSpaces s = s := by
  have hself : ∀ c ∈ s, (if c = 0x20 then spmSpace else [c]) = [c] := by
    intro c hc
    rw [if_neg]
    rintro rfl
    exact h hc
  rw [markSpaces, List.flatMap_congr hself]
  exact List.flatMap_singleton' s

theorem markSpaces_eq_cons {b : UInt8} {s t : Bytes} (hb : b ≠ 0xE2) (h : markSpaces s = b :: t) :
    ∃ r, s = b :: r ∧ markSpaces r = t := by
  rcases s with _ | ⟨c, r⟩
  · cases h
  · rw [markSpaces_cons, spmSpace_eq] at h
    split at h
    · exact absurd (List.cons.inj h).1.symm hb
    · rcases List.cons.inj h with ⟨rfl, hr⟩
      exact ⟨r, rfl, hr⟩

/-- Marking the spaces makes no mark but theirs. -/
theorem unmarked_markSpaces {a : UInt8} {r : Bytes} (h : ¬ spmSpace <+: a :: r) : ¬ spmSpace <+: a :: markSpaces r := by
  rintro ⟨t, ht⟩
  rw [spmSpace_eq] at ht h
  rcases List.cons.inj ht with ⟨rfl, hr⟩
  rcases markSpaces_eq_cons (by decide) hr.symm with ⟨r₁, rfl, hr₁⟩
  rcases markSpaces_eq_cons (by decide) hr₁ with ⟨r₂, rfl, -⟩
  exact h ⟨r₂, rfl⟩

/-- Marking what was unmarked. -/
theorem markSpaces_unmark (s : Bytes) : markSpaces (unmark s) = markSpaces s := by
  induction s using mark_induction with
  | nil => rfl
  | mark r ih => rw [unmark_mark, markSpaces_cons, if_pos rfl, ih, markSpaces_mark]
  | byte a r h ih => rw [unmark_cons h, markSpaces_cons, ih, markSpaces_cons]

/-- Unmarking what was marked. -/
theorem unmark_markSpaces (s : Bytes) : unmark (markSpaces s) = unmark s := by
  induction s using mark_induction with
  | nil => rfl
  | mark r ih => rw [markSpaces_mark, unmark_mark, unmark_mark, ih]
  | byte a r h ih =>
    rw [markSpaces_cons, unmark_cons h]
    by_cases ha : a = 0x20
    · rw [if_pos ha, unmark_mark, ih, ha]
    · rw [if_neg ha, List.singleton_append, unmark_cons (unmarked_markSpaces h), ih]

/-! ## The tokenizer -/

structure SpmTokenizer where
  tokenToId : List (Bytes × Int)
  idToToken : List Bytes
  maxPieceLen : Nat
  bosId : Int
  eosId : Int
  unkId : Int
  addBos : Bool
  addEos : Bool

namespace SpmTokenizer

def idOf (T : SpmTokenizer) (piece : Bytes) : Option Int := (T.tokenToId.find? (·.1 == piece)).map (·.2)

def loadFromGgufTokens (tokens : List Bytes) (bosId eosId unkId : Int) (addBos addEos : Bool) : Result SpmTokenizer :=
  if tokens = [] then fail .invalidArgument "empty SPM token list"
  else .ok
    { tokenToId := (tokens.zipIdx.map fun e => (e.1, (e.2 : Int))).reverse
      idToToken := tokens
      maxPieceLen := tokens.foldl (fun m t => max m t.length) 0
      bosId := bosId
      eosId := eosId
      unkId := if 0 ≤ unkId then unkId else 0
      addBos := addBos
      addEos := addEos }

/-- The longest piece at the start of `s`, of at most `len` bytes. -/
def longestPiece (T : SpmTokenizer) (s : Bytes) : Nat → Option (Nat × Int)
  | 0 => none
  | len + 1 =>
    match T.idOf (s.take (len + 1)) with
    | some id => some (len + 1, id)
    | none => T.longestPiece s len

/-- The loop of `encode`: the parts that the text is cut into, with the ids pushed for them. -/
def cutFrom (T : SpmTokenizer) : Nat → Bytes → List (Bytes × Int)
  | 0, _ => []
  | fuel + 1, s =>
    match s with
    | [] => []
    | c :: rest =>
      match T.longestPiece (c :: rest) (min T.maxPieceLen (c :: rest).length) with
      | some (len, id) => ((c :: rest).take len, id) :: T.cutFrom fuel ((c :: rest).drop len)
      | none => ([c], T.unkId) :: T.cutFrom fuel rest

def cut (T : SpmTokenizer) (text : Bytes) : List (Bytes × Int) :=
  T.cutFrom (spmPreprocess text).length (spmPreprocess text)

def encode (T : SpmTokenizer) (text : Bytes) : List Int :=
  (if T.addBos && 0 ≤ T.bosId then [T.bosId] else []) ++ (T.cut text).map (·.2) ++
    (if T.addEos && 0 ≤ T.eosId then [T.eosId] else [])

/-- What `decode` takes a token for. -/
def spelled (T : SpmTokenizer) (id : Int) : Bytes :=
  if id = T.bosId ∨ id = T.eosId then []
  else if id < 0 then []
  else match T.idToToken[id.toNat]? with
    | none => []
    | some piece => if isSpecialPiece piece then [] else piece

def decode (T : SpmTokenizer) (tokens : List Int) : Bytes :=
  let out := unmark (tokens.flatMap T.spelled)
  if out.head? = some 0x20 then out.tail else out

/-! ## The cut of a text -/

variable {T : SpmTokenizer} {tokens : List Bytes} {bosId eosId unkId : Int} {addBos addEos : Bool}

theorem idOf_get (h : loadFromGgufTokens tokens bosId eosId unkId addBos addEos = .ok T) {piece : Bytes} {id : Int}
    (hid : T.idOf piece = some id) : 0 ≤ id ∧ T.idToToken[id.toNat]? = some piece := by
  unfold loadFromGgufTokens at h
  split at h
  · exact absurd h (fail_ne_ok _ _ _)
  cases h
  exact ((find_last tokens).mp hid).1

theorem longestPiece_some {s : Bytes} {len : Nat} {id : Int} : ∀ {n : Nat}, T.longestPiece s n = some (len, id) →
    0 < len ∧ len ≤ n ∧ T.idOf (s.take len) = some id := by
  intro n
  induction n with
  | zero => intro h; cases h
  | succ n ih =>
    intro h
    rw [longestPiece] at h
    cases hid : T.idOf (s.take (n + 1)) with
    | some i =>
      simp only [hid] at h
      cases h
      exact ⟨Nat.succ_pos n, Nat.le_refl _, hid⟩
    | none =>
      simp only [hid] at h
      rcases ih h with ⟨hpos, hle, hid⟩
      exact ⟨hpos, by omega, hid⟩

theorem cutFrom_flatten : ∀ {fuel : Nat} {s : Bytes}, s.length ≤ fuel → (T.cutFrom fuel s).flatMap (·.1) = s := by
  intro fuel
  induction fuel with
  | zero =>
    intro s h
    rw [List.length_eq_zero_iff.mp (Nat.le_zero.mp h)]
    rfl
  | succ fuel ih =>
    intro s h
    rcases s with _ | ⟨c, rest⟩
    · rfl
    · rw [List.length_cons] at h
      rw [cutFrom]
      cases hp : T.longestPiece (c :: rest) (min T.maxPieceLen (c :: rest).length) with
      | some p =>
        rcases p with ⟨len, id⟩
        rcases longestPiece_some hp with ⟨hpos, -, -⟩
        simp only [List.flatMap_cons]
        rw [ih (by rw [List.length_drop, List.length_cons]; omega), List.take_append_drop]
      | none =>
        simp only [List.flatMap_cons]
        rw [ih (by omega)]
        rfl

/-- A part is a piece with its id, or a byte of its own with the unknown one. -/
theorem mem_cutFrom : ∀ {fuel : Nat} {s : Bytes} {part : Bytes × Int}, part ∈ T.cutFrom fuel s →
    part.1 ≠ [] ∧ (T.idOf part.1 = some part.2 ∨ part.2 = T.unkId) := by
  intro fuel
  induction fuel with
  | zero => intro s part h; cases h
  | succ fuel ih =>
    intro s part h
    rcases s with _ | ⟨c, rest⟩
    · cases h
    · rw [cutFrom] at h
      cases hp : T.longestPiece (c :: rest) (min T.maxPieceLen (c :: rest).length) with
      | some p =>
        rcases p with ⟨len, id⟩
        rcases longestPiece_some hp with ⟨hpos, -, hid⟩
        simp only [hp] at h
        rcases List.mem_cons.mp h with rfl | h
        · refine ⟨?_, .inl hid⟩
          rcases len with _ | len
          · exact absurd hpos (Nat.lt_irrefl 0)
          · simp
        · exact ih h
      | none =>
        simp only [hp] at h
        rcases List.mem_cons.mp h with rfl | h
        · exact ⟨by simp, .inr rfl⟩
        · exact ih h

/-! ## The round trip -/

/-- What the tokens of the text spell. -/
def kept (T : SpmTokenizer) (text : Bytes) : Bytes := (T.cut text).flatMap fun part => T.spelled part.2

/-- A part that comes back: a piece that `decode` does not drop. -/
structure KeptPart (T : SpmTokenizer) (part : Bytes × Int) : Prop where
  piece : T.idOf part.1 = some part.2
  bos : part.2 ≠ T.bosId
  eos : part.2 ≠ T.eosId
  text : isSpecialPiece part.1 = false

theorem decode_encode (T : SpmTokenizer) (text : Bytes) : T.decode (T.encode text) =
    if (unmark (T.kept text)).head? = some 0x20 then (unmark (T.kept text)).tail else unmark (T.kept text) := by
  have hbos : (if T.addBos && 0 ≤ T.bosId then [T.bosId] else []).flatMap T.spelled = [] := by
    split <;> simp [spelled]
  have heos : (if T.addEos && 0 ≤ T.eosId then [T.eosId] else []).flatMap T.spelled = [] := by
    split <;> simp [spelled]
  have hraw : (T.encode text).flatMap T.spelled = T.kept text := by
    rw [encode, List.flatMap_append, List.flatMap_append, hbos, heos, List.nil_append, List.append_nil, List.flatMap_map]
    rfl
  unfold decode
  rw [hraw]

/-- A text that has no mark, after one leading space is taken off. -/
theorem strip_iff {out t : Bytes} :
    (if out.head? = some 0x20 then out.tail else out) = t ↔ out = 0x20 :: t ∨ (out = t ∧ t.head? ≠ some 0x20) := by
  rcases out with _ | ⟨c, out⟩
  · simp only [List.head?_nil, reduceCtorEq, if_false, false_or]
    constructor
    · rintro rfl
      simp
    · exact And.left
  · by_cases hc : c = 0x20
    · subst hc
      rw [List.head?_cons, if_pos rfl, List.tail_cons]
      constructor
      · rintro rfl
        exact .inl rfl
      · rintro (h | ⟨rfl, h⟩)
        · exact (List.cons.inj h).2
        · exact absurd rfl h
    · rw [List.head?_cons, if_neg (by simpa using hc)]
      constructor
      · rintro rfl
        exact .inr ⟨rfl, by simpa using hc⟩
      · rintro (h | ⟨h, -⟩)
        · exact absurd (List.cons.inj h).1 hc
        · exact h

theorem unmark_eq_iff {s t : Bytes} (ht : ¬ spmSpace <:+: t) : unmark s = t ↔ markSpaces s = markSpaces t := by
  constructor
  · rintro rfl
    exact (markSpaces_unmark s).symm
  · intro h
    rw [← unmark_markSpaces, h, unmark_markSpaces, unmark_of_unmarked ht]

theorem spelled_part (h : loadFromGgufTokens tokens bosId eosId unkId addBos addEos = .ok T) (hunk : T.spelled T.unkId = [])
    {text : Bytes} {part : Bytes × Int} (hpart : part ∈ T.cut text) :
    (T.spelled part.2 = [] ∨ T.spelled part.2 = part.1) ∧ (T.spelled part.2 = part.1 ↔ T.KeptPart part) := by
  rcases mem_cutFrom hpart with ⟨hne, hid | hid⟩
  · rcases idOf_get h hid with ⟨h0, hget⟩
    have hsp : T.spelled part.2 = if part.2 = T.bosId ∨ part.2 = T.eosId ∨ isSpecialPiece part.1 = true then [] else part.1 := by
      unfold spelled
      rw [hget, if_neg (Int.not_lt.mpr h0)]
      by_cases hb : part.2 = T.bosId
      · simp [hb]
      by_cases he : part.2 = T.eosId
      · simp [he]
      · simp [hb, he]
    rw [hsp]
    split
    · next hdrop =>
      refine ⟨.inl rfl, iff_of_false (fun he => hne he.symm) fun hk => ?_⟩
      rcases hdrop with hb | he | ht
      · exact hk.bos hb
      · exact hk.eos he
      · rw [hk.text] at ht
        cases ht
    · next hkeep =>
      rw [not_or, not_or, Bool.not_eq_true] at hkeep
      exact ⟨.inr rfl, iff_of_true rfl ⟨hid, hkeep.1, hkeep.2.1, hkeep.2.2⟩⟩
  · rw [hid, hunk]
    refine ⟨.inl rfl, iff_of_false (fun he => hne he.symm) fun hk => ?_⟩
    rcases idOf_get h hk.piece with ⟨h0, hget⟩
    rw [hid] at h0 hget
    rw [spelled, if_neg (fun hor => hor.elim (hid ▸ hk.bos) (hid ▸ hk.eos)), if_neg (Int.not_lt.mpr h0), hget] at hunk
    simp only [hk.text, Bool.false_eq_true, if_false] at hunk
    exact hne hunk

/-- A text comes back exactly when its tokens spell the marked text, or that without the first mark. -/
theorem spm_round_trip_iff (h : loadFromGgufTokens tokens bosId eosId unkId addBos addEos = .ok T) {t : Bytes}
    (ht : ¬ spmSpace <:+: t) :
    (T.decode (T.encode t) = t ↔ markSpaces (T.kept t) = spmPreprocess t ∨
        (markSpaces (T.kept t) = markSpaces t ∧ t.head? ≠ some 0x20)) ∧
      (T.spelled T.unkId = [] → (markSpaces (T.kept t) = spmPreprocess t ↔ ∀ part ∈ T.cut t, T.KeptPart part)) := by
  have hpre : spmPreprocess t = markSpaces (0x20 :: t) := by rw [markSpaces_cons, if_pos rfl, spmPreprocess]
  refine ⟨?_, fun hunk => ?_⟩
  · have ht' : ¬ spmSpace <:+: 0x20 :: t := by
      rw [List.infix_cons_iff, not_or]
      refine ⟨fun hp => ?_, ht⟩
      rcases hp with ⟨r, hr⟩
      rw [spmSpace_eq] at hr
      exact absurd (List.cons.inj hr).1 (by decide)
    rw [decode_encode, strip_iff, unmark_eq_iff ht', unmark_eq_iff ht, hpre]
  · have hflat : (T.cut t).flatMap (·.1) = spmPreprocess t := cutFrom_flatten (Nat.le_refl _)
    have hiff := Lists.flatMap_eq_of_length_le (f := fun part => T.spelled part.2) (g := (·.1)) (l := T.cut t) (by
      intro part hpart
      rcases (spelled_part h hunk hpart).1 with he | he <;> simp [he])
    rw [hflat] at hiff
    have hno : (0x20 : UInt8) ∉ T.kept t := by
      intro hmem
      rcases List.mem_flatMap.mp hmem with ⟨part, hpart, hb⟩
      rcases (spelled_part h hunk hpart).1 with he | he
      · rw [he] at hb
        cases hb
      · rw [he] at hb
        apply space_not_mem_mark (0x20 :: t)
        rw [← hpre, ← hflat]
        exact List.mem_flatMap.mpr ⟨part, hpart, hb⟩
    rw [markSpaces_unmarked hno, kept, hiff]
    exact forall₂_congr fun part hpart => (spelled_part h hunk hpart).2

/-- `<0xNN>`. -/
def bytePiece (b : Nat) : Bytes :=
  let digit := fun d : Nat => UInt8.ofNat (if d < 10 then 0x30 + d else 0x37 + d)
  [0x3C, 0x30, 0x78, digit (b / 16), digit (b % 16), 0x3E]

/-- `<unk>`, `<s>` and `</s>`. -/
def controlTokens : List Bytes := [[0x3C, 0x75, 0x6E, 0x6B, 0x3E], [0x3C, 0x73, 0x3E], [0x3C, 0x2F, 0x73, 0x3E]]

/-- What `load_from_gguf_tokens` makes of them. -/
def ofTokens (tokens : List Bytes) : SpmTokenizer where
  tokenToId := (tokens.zipIdx.map fun e => (e.1, (e.2 : Int))).reverse
  idToToken := tokens
  maxPieceLen := tokens.foldl (fun m t => max m t.length) 0
  bosId := 1
  eosId := 2
  unkId := 0
  addBos := true
  addEos := false

theorem ofTokens_loads {tokens : List Bytes} (h : tokens ≠ []) : loadFromGgufTokens tokens 1 2 0 true false = .ok (ofTokens tokens) := by
  rw [loadFromGgufTokens, if_neg h]
  rfl

/-- `h i`, where `▁h` and `i` are pieces. -/
theorem pieces_round_trip :
    let T := ofTokens (controlTokens ++ [spmSpace, [0xE2, 0x96, 0x81, 0x68], [0x69]])
    T.decode (T.encode [0x68, 0x20, 0x69]) = [0x68, 0x20, 0x69] :=
  (spm_round_trip_iff
    (ofTokens_loads (show controlTokens ++ [spmSpace, [0xE2, 0x96, 0x81, 0x68], [0x69]] ≠ [] by decide))
    (t := [0x68, 0x20, 0x69]) (by decide)).1.mpr (.inl (by decide +kernel))

/-- Those, the mark and the 256 byte pieces. -/
def fallbackTokens : List Bytes := controlTokens ++ [spmSpace] ++ (List.range 256).map bytePiece

/-- Without a piece for it `é` is two unknown bytes, and nothing comes back. -/
theorem no_byte_fallback :
    loadFromGgufTokens fallbackTokens 1 2 0 true false = .ok (ofTokens fallbackTokens) ∧
      (List.range 256).map bytePiece ⊆ fallbackTokens ∧ ValidUtf8 [0xC3, 0xA9] ∧
      (ofTokens fallbackTokens).decode ((ofTokens fallbackTokens).encode [0xC3, 0xA9]) = [] :=
  ⟨ofTokens_loads (by simp [fallbackTokens]), List.subset_append_right _ _, ⟨['é'], by decide⟩, by decide +kernel⟩

end SpmTokenizer

end Uaii.Tokenizers
