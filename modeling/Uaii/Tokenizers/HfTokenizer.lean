/-
  Uaii.Tokenizers.HfTokenizer — `load_hf_tokenizer` on a directory with a
  `tokenizer.json` (`libs/uaii-tokenizers/src/hf_tokenizer.cpp`).

  `fromTokenizerJson` starts from the parsed file, and from `tokenizer_config.json` where
  that could be read and parsed. Looking for the files, and the loaders for `vocab.json`
  with `merges.txt` and for `tokenizer.model`, are left out. A cast of a number that the type cannot
  hold is undefined behaviour.

  The ids come from `model.vocab` alone; an added token is registered by its content, and
  the id beside it is never read. Proved: when an added token is the one id that its entry
  says (`added_token_iff`). One that `model.vocab` does not list is spelled in bytes
  (`unlisted_token_is_spelled`).
-/

import Uaii.Ir.SerializeJson
import Uaii.Tokenizers.BpeRoundTrip

namespace Uaii.Tokenizers

open Ir (castI64 castUnsigned trunc strField boolField)
open Ir.Json (Value Object)

/-- A string of the file. -/
def rawBytes (s : String) : Bytes := s.toList.map fun c => .ofNat c.toNat

/-! ## `model` -/

/-- The entries of `vocab` that have a number. -/
def numericEntries (vocab : Object) : List (Bytes × ℚ) :=
  vocab.filterMap fun kv => match kv.2 with
    | .num x => some (rawBytes kv.1, x)
    | _ => none

def maxId (entries : List (Bytes × ℚ)) : Result Int :=
  entries.foldlM (fun m e => do
    let id ← castI64 e.2
    .ok (max m id)) (-1)

def setToken (tokens : List Bytes) (e : Bytes × ℚ) : Result (List Bytes) := do
  let id ← castUnsigned 64 e.2
  .ok (if id < tokens.length then tokens.set id e.1 else tokens)

def vocabTokens (vocab : Object) : Result (List Bytes) := do
  let m ← maxId (numericEntries vocab)
  if m < 0 then fail .invalidArgument "empty tokenizer.json vocab"
  else (numericEntries vocab).foldlM setToken (List.replicate (m + 1).toNat [])

/-- `tokens`, empty without a vocabulary. -/
def modelTokens (model : Object) : Result (List Bytes) :=
  match model.get "vocab" with
  | some (.obj vocab) => vocabTokens vocab
  | _ => .ok []

def mergeLine : Value → Option Bytes
  | .str s => some (rawBytes s)
  | .arr (.str a :: .str b :: _) => some (rawBytes a ++ 0x20 :: rawBytes b)
  | _ => none

def mergeLines (model : Object) : List Bytes :=
  match model.get "merges" with
  | some (.arr items) => items.filterMap mergeLine
  | _ => []

/-! ## `pre_tokenizer` -/

/-- What `walk_pre` sets. -/
structure PreTokenizer where
  addPrefix : Bool
  metaspace : Bytes

/-- `▁`. -/
def defaultMetaspace : Bytes := [0xE2, 0x96, 0x81]

/-- A node of the walk, without its children. -/
def visitPre (fields : Object) (p : PreTokenizer) : PreTokenizer :=
  if strField fields "type" "" = "ByteLevel" then { p with addPrefix := boolField fields "add_prefix_space" p.addPrefix }
  else if strField fields "type" "" = "Metaspace" then
    { p with metaspace :=
        if strField fields "replacement" "" = "" then defaultMetaspace else rawBytes (strField fields "replacement" "") }
  else p

mutual

def walkPre : Value → PreTokenizer → PreTokenizer
  | .obj fields, p => walkFields fields (visitPre fields p)
  | _, p => p

/-- The array under `pretokenizers`. -/
def walkFields : List (String × Value) → PreTokenizer → PreTokenizer
  | [], p => p
  | (key, .arr items) :: fields, p => if key = "pretokenizers" then walkItems items p else walkFields fields p
  | (key, _) :: fields, p => if key = "pretokenizers" then p else walkFields fields p

def walkItems : List Value → PreTokenizer → PreTokenizer
  | [], p => p
  | v :: vs, p => walkItems vs (walkPre v p)

end

def preTokenizer (root : Object) : PreTokenizer := walkPre ((root.get "pre_tokenizer").getD .null) ⟨false, []⟩

/-! ## The tokenizer -/

namespace BpeTokenizer

/-- `set_byte_level_pretokenize`, `set_metaspace` and `set_add_prefix_space`. -/
def configure (T : BpeTokenizer) (p : PreTokenizer) : BpeTokenizer :=
  { T with
    pretokenize := p.metaspace = []
    metaspace := p.metaspace
    addPrefixSpace := p.addPrefix }

end BpeTokenizer

def addedTokens (root : Object) : List Value :=
  match root.get "added_tokens" with
  | some (.arr items) => items
  | _ => []

/-- The content of an entry of `added_tokens`. -/
def addedContent : Value → Option Bytes
  | .obj entry => match Object.get entry "content" with
    | some (.str s) => some (rawBytes s)
    | _ => none
  | _ => none

/-- The added tokens, then `unk_token`. -/
def contents (root : Object) : List Bytes :=
  (addedTokens root).filterMap addedContent ++ [rawBytes (strField root "unk_token" "")]

/-- The token that `tokenizer_config.json` wants in front. -/
def bosToken (config : Option Value) : Option Bytes :=
  match config with
  | some (.obj cfg) =>
    if boolField cfg "add_bos_token" false ∧ strField cfg "bos_token" "" ≠ "" then some (rawBytes (strField cfg "bos_token" ""))
    else none
  | _ => none

namespace BpeTokenizer

def withBos (T : BpeTokenizer) : Option Bytes → BpeTokenizer
  | none => T
  | some bos =>
    match (T.registerSpecial bos).encode bos with
    | [] => T.registerSpecial bos
    | id :: _ => { T.registerSpecial bos with addBos := true, bosId := id }

end BpeTokenizer

def fromTokenizerJson (root : Object) (config : Option Value) : Result BpeTokenizer :=
  match root.get "model" with
  | some (.obj model) =>
    if (strField model "type" "").toList.map Char.toLower ∈ ["unigram".toList, "wordpiece".toList, "wordlevel".toList] then
      fail .notImplemented
        "Unigram tokenizer.json is not loaded. Use tokenizer.model (SentencePiece) or a BPE tokenizer.json"
    else do
      let tokens ← modelTokens model
      if tokens = [] then fail .invalidArgument "tokenizer.json has no extractable BPE vocab"
      else do
        let tok ← BpeTokenizer.empty.loadFromVocabMerges tokens (mergeLines model)
        .ok (((contents root).foldl .registerSpecial (tok.configure (preTokenizer root))).withBos (bosToken config))
  | _ => fail .invalidArgument "tokenizer.json missing model object"

/-- From the texts of the two files. -/
def loadTokenizerJson (text : String) (config : Option String) : Result BpeTokenizer :=
  match Ir.Json.parse text with
  | .ok (.obj root) => fromTokenizerJson root (config.bind fun t => (Ir.Json.parse t).toOption)
  | _ => fail .invalidArgument "bad tokenizer.json"

/-! ## The ids -/

/-- The last entry numbered `id`. -/
def lastToken (entries : List (Bytes × ℚ)) (id : Int) : Option Bytes :=
  (entries.reverse.find? fun e => trunc e.2 = id).map (·.1)

theorem lastToken_cons (e : Bytes × ℚ) (entries : List (Bytes × ℚ)) (id : Int) :
    lastToken (e :: entries) id = (lastToken entries id).or (if trunc e.2 = id then some e.1 else none) := by
  unfold lastToken
  rw [List.reverse_cons, List.find?_append]
  by_cases he : trunc e.2 = id
  · cases entries.reverse.find? fun e => trunc e.2 = id <;> simp [he]
  · cases entries.reverse.find? fun e => trunc e.2 = id <;> simp [he]

theorem castI64_ok {x : ℚ} {n : Int} (h : castI64 x = .ok n) : n = trunc x := by
  unfold castI64 at h
  split at h
  · exact (Except.ok.inj h).symm
  · cases h

theorem castUnsigned_ok {bits n : Nat} {x : ℚ} (h : castUnsigned bits x = .ok n) : (n : Int) = trunc x := by
  unfold castUnsigned at h
  split at h
  · next hx =>
    rw [← Except.ok.inj h]
    apply Int.toNat_of_nonneg
    unfold trunc
    split
    · next h0 => exact Int.floor_nonneg.mpr h0
    · exact Int.ceil_nonneg_of_neg_one_lt hx.1
  · cases h

theorem maxId_bound : ∀ {entries : List (Bytes × ℚ)} {m m' : Int},
    entries.foldlM (fun m e => do
      let id ← castI64 e.2
      .ok (max m id)) m = (.ok m' : Result Int) → m ≤ m' ∧ ∀ e ∈ entries, trunc e.2 ≤ m' := by
  intro entries
  induction entries with
  | nil =>
    intro m m' h
    cases h
    exact ⟨Int.le_refl _, by simp⟩
  | cons e entries ih =>
    intro m m' h
    rw [List.foldlM_cons] at h
    obtain ⟨m₁, h₁, h⟩ := bind_ok h
    obtain ⟨id, hid, h₁⟩ := bind_ok h₁
    cases h₁
    have hm := ih h
    have hid := castI64_ok hid
    refine ⟨by omega, fun e' he' => ?_⟩
    apply (List.mem_cons.mp he').elim
    · intro he'
      subst he'
      omega
    · exact hm.2 e'

theorem setToken_run : ∀ {entries : List (Bytes × ℚ)} {tokens out : List Bytes}, entries.foldlM setToken tokens = .ok out →
    out.length = tokens.length ∧
      ∀ (j : Nat) (hj : j < tokens.length), out[j]? = some ((lastToken entries j).getD tokens[j]) := by
  intro entries
  induction entries with
  | nil =>
    intro tokens out h
    cases h
    exact ⟨rfl, fun j hj => by simp [lastToken, hj]⟩
  | cons e entries ih =>
    intro tokens out h
    rw [List.foldlM_cons] at h
    obtain ⟨tokens₁, h₁, h⟩ := bind_ok h
    obtain ⟨id, hid, h₁⟩ := bind_ok h₁
    have hid := castUnsigned_ok hid
    have hset : tokens₁ = tokens.set id e.1 := by
      cases h₁
      split
      · rfl
      · next hlt => exact (List.set_eq_of_length_le (Nat.le_of_not_lt hlt)).symm
    subst hset
    obtain ⟨hlen, hget⟩ := ih h
    rw [List.length_set] at hlen
    refine ⟨hlen, fun j hj => ?_⟩
    rw [hget j (by rw [List.length_set]; exact hj), lastToken_cons, List.getElem_set, ← hid]
    cases lastToken entries j with
    | some t => rfl
    | none => by_cases hj : id = j <;> simp [hj]

/-- The vector holds at every place the last key with this number. -/
theorem vocabTokens_get {vocab : Object} {tokens : List Bytes} (h : vocabTokens vocab = .ok tokens) {id : Int} {t : Bytes}
    (ht : t ≠ []) : 0 ≤ id ∧ tokens[id.toNat]? = some t ↔ 0 ≤ id ∧ lastToken (numericEntries vocab) id = some t := by
  unfold vocabTokens at h
  obtain ⟨m, hm, h⟩ := bind_ok h
  split at h
  · exact absurd h (fail_ne_ok _ _ _)
  obtain ⟨hlen, hget⟩ := setToken_run h
  rw [List.length_replicate] at hlen
  apply and_congr_right
  intro hid
  have hcast : ((id.toNat : Nat) : Int) = id := Int.toNat_of_nonneg hid
  by_cases hlt : id.toNat < (m + 1).toNat
  · have hlt' : id.toNat < (List.replicate (m + 1).toNat ([] : Bytes)).length := by rwa [List.length_replicate]
    rw [hget id.toNat hlt', List.getElem_replicate, hcast]
    cases lastToken (numericEntries vocab) id with
    | none => simp [ht.symm]
    | some t' => simp
  · rw [List.getElem?_eq_none (by omega)]
    refine iff_of_false (by simp) fun hlast => ?_
    obtain ⟨e, he, -⟩ := Option.map_eq_some_iff.mp hlast
    have hmem := (maxId_bound hm).2 e (List.mem_reverse.mp (List.mem_of_find?_eq_some he))
    have hid : trunc e.2 = id := by simpa using List.find?_some he
    omega

theorem find_last {s : Bytes} {id : Int} (tokens : List Bytes) :
    ((tokens.zipIdx.map fun e => (e.1, (e.2 : Int))).reverse.find? (·.1 == s)).map (·.2) = some id ↔
      (0 ≤ id ∧ tokens[id.toNat]? = some s) ∧ ∀ id', id < id' → tokens[id'.toNat]? ≠ some s := by
  induction tokens using List.reverseRecOn with
  | nil => simp
  | append_singleton tokens t ih =>
    rw [List.zipIdx_append, List.map_append, List.reverse_append, List.zipIdx_cons, List.zipIdx_nil, List.map_cons,
      List.map_nil, List.reverse_singleton, List.singleton_append, Nat.zero_add]
    by_cases ht : t = s
    · subst ht
      rw [List.find?_cons_of_pos (by simp)]
      show some (tokens.length : Int) = some id ↔ _
      apply Iff.intro
      · intro h
        cases h
        refine ⟨⟨Int.natCast_nonneg _, by simp⟩, fun id' hid' => ?_⟩
        rw [List.getElem?_eq_none (by rw [List.length_append, List.length_singleton]; omega)]
        simp
      · rintro ⟨⟨h0, hget⟩, hlast⟩
        have hle := hlast tokens.length
        obtain ⟨hlt, -⟩ := List.getElem?_eq_some_iff.mp hget
        rw [List.length_append, List.length_singleton] at hlt
        rw [Int.toNat_natCast, List.getElem?_concat_length] at hle
        congr 1
        by_contra hne
        exact hle (by omega) rfl
    · rw [List.find?_cons_of_neg (by simpa using ht), ih]
      have hget : ∀ i : Nat, (tokens ++ [t])[i]? = some s ↔ tokens[i]? = some s := by
        intro i
        rw [List.getElem?_append]
        split
        · exact Iff.rfl
        · next hi =>
          rw [List.getElem?_eq_none (Nat.le_of_not_lt hi)]
          refine iff_of_false (fun h => ?_) (by simp)
          have hmem := List.mem_of_getElem? h
          exact ht (List.mem_singleton.mp hmem).symm
      simp only [hget, ne_eq]

namespace BpeTokenizer

variable {T : BpeTokenizer}

/-! ## What `encode` emits -/

theorem bpeEncodePiece_ne_nil {p : Bytes} (hp : p ≠ []) : T.bpeEncodePiece p ≠ [] := by
  unfold bpeEncodePiece
  split
  · simp
  · rw [ne_eq, List.map_eq_nil_iff]
    intro hnil
    have hflat : (T.segments p).flatten = (byteWord p).flatten := Merges.mergePass_flatten _ _
    obtain ⟨b, p, rfl⟩ := List.exists_cons_of_ne_nil hp
    rw [hnil, byteWord, List.map_cons, List.flatten_cons] at hflat
    have hpos := utf8Encode_length_pos (byteEncoder b)
    have hlen := congrArg List.length hflat
    rw [List.length_append] at hlen
    simp [byteSymbol] at hlen
    omega

theorem codepoints_ne_nil {s : Bytes} (hs : s ≠ []) : codepoints s ≠ [] := by
  obtain ⟨c, s, rfl⟩ := List.exists_cons_of_ne_nil hs
  have hnext : ∃ cp rest, utf8Next (c :: s) = some (cp, rest) := by
    rw [utf8Next]
    repeat' split
    all_goals exact ⟨_, _, rfl⟩
  obtain ⟨cp, rest, hnext⟩ := hnext
  rw [codepoints, List.length_cons, codepointsFrom, hnext]
  simp

theorem encodeChunk_ne_nil {s : Bytes} (hs : s ≠ []) : T.encodeChunk s ≠ [] := by
  unfold encodeChunk
  split
  · obtain ⟨cp, cps, hcps⟩ := List.exists_cons_of_ne_nil (codepoints_ne_nil hs)
    have hpos := pieceLen_pos (List.cons_ne_nil cp cps)
    have hfirst : utf8FromCps ((cp :: cps).take (pieceLen (cp :: cps))) ≠ [] := by
      obtain ⟨n, hn⟩ := Nat.exists_eq_add_one_of_ne_zero (Nat.pos_iff_ne_zero.mp hpos)
      rw [hn, List.take_succ_cons, utf8FromCps, List.flatMap_cons]
      exact List.append_ne_nil_of_left_ne_nil (List.ne_nil_of_length_pos (utf8Encode_length_pos cp)) _
    rw [gpt2RegexSplit, hcps, List.length_cons, piecesFrom.eq_3 _ _ (by simp), List.map_cons, List.flatMap_cons]
    exact List.append_ne_nil_of_left_ne_nil (bpeEncodePiece_ne_nil hfirst) _
  · exact bpeEncodePiece_ne_nil hs

theorem encodeFrom_ne_nil {fuel : Nat} {s : Bytes} (hs : s ≠ []) (hf : s.length ≤ fuel) : T.encodeFrom fuel s ≠ [] := by
  obtain ⟨c, s, rfl⟩ := List.exists_cons_of_ne_nil hs
  rw [List.length_cons] at hf
  obtain ⟨fuel, rfl⟩ := Nat.exists_eq_add_one_of_ne_zero (show fuel ≠ 0 by omega)
  rw [encodeFrom]
  split
  · simp
  · exact List.append_ne_nil_of_left_ne_nil (encodeChunk_ne_nil (by simp)) _

theorem encodeFrom_nil (fuel : Nat) : T.encodeFrom fuel [] = [] := by
  cases fuel <;> rfl

/-- No special token is cut out anywhere. -/
theorem unhit_of_beforeSpecial : ∀ {s : Bytes}, s.length ≤ T.beforeSpecial s → ∀ t, t <:+ s → t ≠ [] → T.specialAt t = none := by
  intro s
  induction s with
  | nil =>
    intro _ t ht hne
    exact absurd (List.suffix_nil.mp ht) hne
  | cons c s ih =>
    intro h t ht hne
    rw [beforeSpecial, List.length_cons] at h
    split at h
    · omega
    · next hnone =>
      apply (List.suffix_cons_iff.mp ht).elim
      · intro ht
        rw [ht]
        simpa using hnone
      · exact fun ht => ih (by omega) t ht hne

theorem beforeSpecial_of_unhit : ∀ {s : Bytes}, (∀ t, t <:+ s → t ≠ [] → T.specialAt t = none) → T.beforeSpecial s = s.length := by
  intro s
  induction s with
  | nil => intro _; rfl
  | cons c s ih =>
    intro h
    rw [beforeSpecial, h _ List.suffix_rfl (by simp), ih fun t ht => h t (ht.trans (List.suffix_cons c s))]
    rfl

/-- A text without special tokens is one chunk. -/
theorem encodeFrom_unhit {fuel : Nat} {s : Bytes} (hs : s ≠ []) (hf : s.length ≤ fuel)
    (h : ∀ t, t <:+ s → t ≠ [] → T.specialAt t = none) : T.encodeFrom fuel s = T.encodeChunk s := by
  obtain ⟨c, s, rfl⟩ := List.exists_cons_of_ne_nil hs
  rw [List.length_cons] at hf
  obtain ⟨fuel, rfl⟩ := Nat.exists_eq_add_one_of_ne_zero (show fuel ≠ 0 by omega)
  have hb := beforeSpecial_of_unhit fun t ht => h t (ht.trans (List.suffix_cons c s))
  rw [encodeFrom, h _ List.suffix_rfl hs]
  simp only [hb, List.take_length, List.drop_length, encodeFrom_nil, List.append_nil]

/-- One id comes from one special token or from one chunk. -/
theorem encodeFrom_single (hsp : [] ∉ T.specialTokens) {fuel : Nat} {s : Bytes} {id : Int} (hs : s ≠ [])
    (hf : s.length ≤ fuel) (h : T.encodeFrom fuel s = [id]) :
    (s ∈ T.specialTokens ∧ T.idOf s = some id) ∨
      ((∀ t, t <:+ s → t ≠ [] → T.specialAt t = none) ∧ T.encodeChunk s = [id]) := by
  obtain ⟨c, s, rfl⟩ := List.exists_cons_of_ne_nil hs
  rw [List.length_cons] at hf
  obtain ⟨fuel, rfl⟩ := Nat.exists_eq_add_one_of_ne_zero (show fuel ≠ 0 by omega)
  rw [encodeFrom] at h
  cases hat : T.specialAt (c :: s) with
  | some sp =>
    simp only [hat] at h
    obtain ⟨hid, hrest⟩ := List.cons.inj h
    obtain ⟨hpre, hin⟩ : sp <+: c :: s ∧ (T.idOf sp).isSome := by simpa using List.find?_some hat
    have hmem := List.mem_of_find?_eq_some hat
    obtain ⟨i, hi⟩ := Option.isSome_iff_exists.mp hin
    rw [hi, Option.getD_some] at hid
    have hdrop : (c :: s).drop sp.length = [] := by
      by_contra hne
      refine encodeFrom_ne_nil hne ?_ hrest
      have hpos : sp.length ≠ 0 := fun h0 => hsp (List.length_eq_zero_iff.mp h0 ▸ hmem)
      rw [List.length_drop, List.length_cons]
      omega
    have hall : sp = c :: s := hpre.eq_of_length_le (List.drop_eq_nil_iff.mp hdrop)
    rw [hall] at hmem hi
    exact .inl ⟨hmem, by rw [hi, hid]⟩
  | none =>
    simp only [hat] at h
    have hrest : s.drop (T.beforeSpecial s) = [] := by
      by_contra hne
      have hchunk := encodeChunk_ne_nil (T := T) (List.cons_ne_nil c (s.take (T.beforeSpecial s)))
      have hmore : T.encodeFrom fuel (s.drop (T.beforeSpecial s)) ≠ [] := encodeFrom_ne_nil hne (by rw [List.length_drop]; omega)
      have hlen := congrArg List.length h
      rw [List.length_append, List.length_singleton] at hlen
      have := List.length_pos_iff.mpr hchunk
      have := List.length_pos_iff.mpr hmore
      omega
    have hle := List.drop_eq_nil_iff.mp hrest
    rw [hrest, encodeFrom_nil, List.append_nil, List.take_of_length_le hle] at h
    refine .inr ⟨fun t ht hne => ?_, h⟩
    apply (List.suffix_cons_iff.mp ht).elim
    · exact fun ht => ht ▸ hat
    · exact fun ht => unhit_of_beforeSpecial hle t ht hne

theorem encodeChunk_nonneg (h : ∀ t i, T.idOf t = some i → 0 ≤ i) (s : Bytes) : ∀ id ∈ T.encodeChunk s, 0 ≤ id := by
  have hget : ∀ t, 0 ≤ (T.idOf t).getD 0 := by
    intro t
    cases ht : T.idOf t with
    | none => exact Int.le_refl _
    | some i => exact h t i ht
  have hpiece : ∀ p, ∀ id ∈ T.bpeEncodePiece p, 0 ≤ id := by
    intro p id hid
    rw [bpeEncodePiece_eq] at hid
    obtain ⟨w, -, rfl⟩ := List.mem_map.mp hid
    exact hget w
  intro id hid
  unfold encodeChunk at hid
  split at hid
  · obtain ⟨p, -, hid⟩ := List.mem_flatMap.mp hid
    exact hpiece p id hid
  · exact hpiece s id hid

theorem encodeFrom_nonneg (h : ∀ t i, T.idOf t = some i → 0 ≤ i) : ∀ (fuel : Nat) (s : Bytes), ∀ id ∈ T.encodeFrom fuel s, 0 ≤ id := by
  intro fuel
  induction fuel with
  | zero => exact fun s id hid => absurd hid List.not_mem_nil
  | succ fuel ih =>
    intro s id hid
    cases s with
    | nil => cases hid
    | cons c s =>
      rw [encodeFrom] at hid
      cases hat : T.specialAt (c :: s) with
      | some sp =>
        simp only [hat] at hid
        apply (List.mem_cons.mp hid).elim
        · intro hid
          cases hsp : T.idOf sp with
          | none => simp [hid, hsp]
          | some i => simpa [hid, hsp] using h sp i hsp
        · exact ih _ id
      | none =>
        simp only [hat] at hid
        exact (List.mem_append.mp hid).elim (encodeChunk_nonneg h _ id) (ih _ id)

/-- The text that `encode` cuts up, when no space is put in front of it. -/
def marked (T : BpeTokenizer) (text : Bytes) : Bytes :=
  if T.metaspace = [] then text
  else (if text = [] then [] else T.metaspace) ++ text.flatMap fun c => if c = 0x20 then T.metaspace else [c]

theorem marked_length {text : Bytes} (hm : T.metaspace ≠ []) (ht : text ≠ []) : text.length < (T.marked text).length := by
  have hlen : ∀ s : Bytes, s.length ≤ (s.flatMap fun c => if c = 0x20 then T.metaspace else [c]).length := by
    intro s
    induction s with
    | nil => exact Nat.le_refl _
    | cons c s ih =>
      rw [List.flatMap_cons, List.length_append, List.length_cons]
      split
      · have := List.length_pos_iff.mpr hm
        omega
      · rw [List.length_singleton]
        omega
  have := hlen text
  have := List.length_pos_iff.mpr hm
  rw [marked, if_neg hm, if_neg ht, List.length_append]
  omega

theorem marked_ne_nil {text : Bytes} (ht : text ≠ []) : T.marked text ≠ [] := by
  by_cases hm : T.metaspace = []
  · rw [marked, if_pos hm]
    exact ht
  · have := marked_length hm ht
    exact List.ne_nil_of_length_pos (by omega)

/-- The ids in front of those of the text. -/
def bosIds (T : BpeTokenizer) : List Int := if T.addBos && 0 ≤ T.bosId then [T.bosId] else []

/-- The id of a special token, and what it stands for. -/
def spelling (T : BpeTokenizer) (tok : Bytes) : Bytes := if T.isSpecial tok then tok else byteDecode tok

theorem decode_single_iff {id : Int} {text : Bytes} (ht : text ≠ []) :
    T.decode [id] = text ↔ ∃ tok, (0 ≤ id ∧ T.idToToken[id.toNat]? = some tok) ∧ T.spelling tok = text := by
  unfold decode
  rw [decodeFrom]
  by_cases hid : 0 ≤ id ∧ id.toNat < T.idToToken.length
  · rw [if_pos hid]
    have hget : T.idToToken[id.toNat]? = some (T.idToToken.getD id.toNat []) := by
      rw [List.getD_eq_getElem?_getD, List.getElem?_eq_getElem hid.2]
      rfl
    simp only [hget, hid.1, true_and, Option.some.injEq, exists_eq_left', spelling]
    split
    · simp [decodeFrom, byteDecode, codepoints, codepointsFrom]
    · simp [decodeFrom]
  · rw [if_neg hid]
    refine iff_of_false (fun h => ht ?_) ?_
    · rw [← h]
      rfl
    · rintro ⟨tok, ⟨h0, hget⟩, -⟩
      exact hid ⟨h0, (List.getElem?_eq_some_iff.mp hget).1⟩

/-! ## Registered tokens -/

/-- Longer ones first. -/
structure SpecialsOk (ts : List Bytes) : Prop where
  sorted : ts.Pairwise fun a b => b.length ≤ a.length
  nonempty : [] ∉ ts

theorem sortSpecials_ok {ts : List Bytes} (h : [] ∉ ts) : SpecialsOk (sortSpecials ts) := by
  refine ⟨?_, fun hmem => h (mem_sortSpecials.mp hmem)⟩
  have htrans : ∀ a b c : Bytes, decide (b.length ≤ a.length) → decide (c.length ≤ b.length) → decide (c.length ≤ a.length) := by
    simp only [decide_eq_true_eq]
    omega
  have htotal : ∀ a b : Bytes, decide (b.length ≤ a.length) || decide (a.length ≤ b.length) := by
    simp only [Bool.or_eq_true, decide_eq_true_eq]
    omega
  simpa [sortSpecials] using List.pairwise_mergeSort htrans htotal ts

/-- Of the specials that start a text the longest comes first. -/
theorem specialAt_longest (hok : SpecialsOk T.specialTokens) {s piece : Bytes} (hmem : piece ∈ T.specialTokens)
    (hid : (T.idOf piece).isSome) (hpre : piece <+: s) (hlong : ∀ sp ∈ T.specialTokens, sp <+: s → sp.length ≤ piece.length) :
    T.specialAt s = some piece := by
  have hp : (piece.isPrefixOf s && (T.idOf piece).isSome) = true := by simp [hid, hpre]
  cases hat : T.specialAt s with
  | none => exact absurd hp (by simpa using List.find?_eq_none.mp hat piece hmem)
  | some sp =>
    obtain ⟨hsp, as, bs, hl, hbefore⟩ := List.find?_eq_some_iff_append.mp hat
    obtain ⟨hspre, -⟩ : sp <+: s ∧ (T.idOf sp).isSome := by simpa using hsp
    have hle : piece.length ≤ sp.length := by
      have hsorted := hok.sorted
      rw [hl] at hmem hsorted
      rcases List.mem_append.mp hmem with hin | hin
      · have hno := hbefore piece hin
        rw [hp] at hno
        cases hno
      · rcases List.mem_cons.mp hin with rfl | hin
        · exact Nat.le_refl _
        · exact (List.pairwise_cons.mp (List.pairwise_append.mp hsorted).2.1).1 piece hin
    have hge := hlong sp (hl ▸ List.mem_append_right _ List.mem_cons_self) hspre
    rw [(List.prefix_of_prefix_length_le hpre hspre hle).eq_of_length (by omega)]

/-- `T'` is `T` with the tokens `added` registered. -/
structure Registered (added : List Bytes) (T T' : BpeTokenizer) : Prop where
  frame : T' = { T with specialTokens := T'.specialTokens }
  keeps : ∀ t ∈ T.specialTokens, t ∈ T'.specialTokens
  adds : ∀ t ∈ added, t ≠ [] → t ∈ T'.specialTokens
  ok : SpecialsOk T.specialTokens → SpecialsOk T'.specialTokens

theorem registerSpecial_registered (T : BpeTokenizer) (token : Bytes) : Registered [token] T (T.registerSpecial token) := by
  unfold registerSpecial
  by_cases ht : token = []
  · rw [if_pos ht]
    exact ⟨rfl, fun _ h => h, fun t hmem hne => absurd (List.mem_singleton.mp hmem) (ht ▸ hne), id⟩
  rw [if_neg ht]
  refine ⟨rfl, fun t h => mem_sortSpecials.mpr ?_, fun t h _ => mem_sortSpecials.mpr ?_, fun h => sortSpecials_ok ?_⟩
  · split
    · exact h
    · exact List.mem_append_left _ h
  · rw [List.mem_singleton] at h
    subst h
    split
    · assumption
    · simp
  · split
    · exact h.nonempty
    · simpa [h.nonempty] using ht

theorem Registered.trans {added added' : List Bytes} {T T' T'' : BpeTokenizer} (h : Registered added T T')
    (h' : Registered added' T' T'') : Registered (added ++ added') T T'' := by
  refine ⟨?_, fun t ht => h'.keeps t (h.keeps t ht), fun t ht hne => ?_, fun hok => h'.ok (h.ok hok)⟩
  · rw [h'.frame, h.frame]
  · apply (List.mem_append.mp ht).elim
    · exact fun ht => h'.keeps t (h.adds t ht hne)
    · exact fun ht => h'.adds t ht hne

theorem foldl_registered : ∀ (added : List Bytes) (T : BpeTokenizer), Registered added T (added.foldl registerSpecial T) := by
  intro added
  induction added with
  | nil => exact fun T => ⟨rfl, fun _ h => h, fun t h => absurd h List.not_mem_nil, id⟩
  | cons token added ih => exact fun T => (registerSpecial_registered T token).trans (ih _)

/-- A special token is encoded without a space in front of it. -/
theorem encode_special {text : Bytes} (ht : text ∈ T.specialTokens) (hp : T.pretokenize = decide (T.metaspace = [])) :
    T.encode text = T.bosIds ++ T.encodeFrom (T.marked text).length (T.marked text) := by
  have hwork : (if T.pretokenize && T.addPrefixSpace && T.marked text ≠ [] && (T.marked text).head? ≠ some 0x20 &&
      !T.specialTokens.any (·.isPrefixOf (T.marked text)) then 0x20 :: T.marked text else T.marked text) = T.marked text := by
    rw [if_neg]
    by_cases hm : T.metaspace = []
    · have hany : T.specialTokens.any (·.isPrefixOf (T.marked text)) = true :=
        List.any_eq_true.mpr ⟨text, ht, by simp [marked, hm]⟩
      simp [hany]
    · simp [hp, hm]
  show T.bosIds ++ _ = _
  congr 1
  show (fun work : Bytes => T.encodeFrom work.length work) _ = _
  exact congrArg (fun work : Bytes => T.encodeFrom work.length work) hwork

/-- What a tokenizer loaded from a file has in it. -/
structure Loaded (root : Object) (config : Option Value) (tokens : List Bytes) (T : BpeTokenizer) : Prop where
  ids : T.tokenToId = (tokens.zipIdx.map fun e => (e.1, (e.2 : Int))).reverse
  tokens : T.idToToken = tokens
  specials : SpecialsOk T.specialTokens
  registered : ∀ t ∈ contents root, t ≠ [] → t ∈ T.specialTokens
  metaspace : T.metaspace = (preTokenizer root).metaspace
  pretokenize : T.pretokenize = decide (T.metaspace = [])
  bos : T.bosIds = [] ↔ bosToken config = none

theorem Loaded.idOf_iff {root : Object} {config : Option Value} {tokens : List Bytes} (h : Loaded root config tokens T)
    {s : Bytes} {id : Int} : T.idOf s = some id ↔
      (0 ≤ id ∧ tokens[id.toNat]? = some s) ∧ ∀ id', id < id' → tokens[id'.toNat]? ≠ some s := by
  unfold idOf
  rw [h.ids]
  exact find_last tokens

theorem withBos_bosIds {bos : Option Bytes} (hids : ∀ t i, T.idOf t = some i → 0 ≤ i) (hp : T.pretokenize = decide (T.metaspace = []))
    (hadd : T.addBos = false) (hbos : ∀ t, bos = some t → t ≠ []) : (T.withBos bos).bosIds = [] ↔ bos = none := by
  cases bos with
  | none => simp [withBos, bosIds, hadd]
  | some t =>
    have hreg := registerSpecial_registered T t
    have hframe := hreg.frame
    have hmem := hreg.adds t (List.mem_singleton_self t) (hbos t rfl)
    have henc := encode_special (T := T.registerSpecial t) hmem (by rw [hframe]; exact hp)
    have hnil : (T.registerSpecial t).bosIds = [] := by
      rw [hframe]
      simp [bosIds, hadd]
    have hnonneg := encodeFrom_nonneg (T := T.registerSpecial t) (by rw [hframe]; exact hids)
      ((T.registerSpecial t).marked t).length ((T.registerSpecial t).marked t)
    rw [hnil, List.nil_append] at henc
    rw [← henc] at hnonneg
    refine iff_of_false ?_ (by simp)
    unfold withBos
    cases he : (T.registerSpecial t).encode t with
    | nil => exact absurd (henc.symm.trans he) (encodeFrom_ne_nil (marked_ne_nil (hbos t rfl)) (Nat.le_refl _))
    | cons id ids =>
      have hid : 0 ≤ id := hnonneg id (by rw [he]; exact List.mem_cons_self)
      simp only [he]
      simp [bosIds, hid]

/-- Everything but the special tokens and the BOS stays. -/
theorem withBos_frame (T : BpeTokenizer) (bos : Option Bytes) : ∃ ts b i,
    T.withBos bos = { T with specialTokens := ts, addBos := b, bosId := i } ∧ (∀ t ∈ T.specialTokens, t ∈ ts) ∧
      (SpecialsOk T.specialTokens → SpecialsOk ts) := by
  cases bos with
  | none => exact ⟨T.specialTokens, T.addBos, T.bosId, rfl, fun _ h => h, id⟩
  | some t =>
    have hreg := registerSpecial_registered T t
    cases he : (T.registerSpecial t).encode t with
    | nil =>
      refine ⟨(T.registerSpecial t).specialTokens, T.addBos, T.bosId, ?_, hreg.keeps, hreg.ok⟩
      simp only [withBos, he]
      exact hreg.frame
    | cons id ids =>
      refine ⟨(T.registerSpecial t).specialTokens, true, id, ?_, hreg.keeps, hreg.ok⟩
      simp only [withBos, he]
      rw [hreg.frame]

theorem loadFromVocabMerges_eq {tokens mergeLines : List Bytes} (h : empty.loadFromVocabMerges tokens mergeLines = .ok T) :
    ∃ ts, T = { empty with
      tokenToId := (tokens.zipIdx.map fun e => (e.1, (e.2 : Int))).reverse
      idToToken := tokens
      merges := mergeLines.filterMap parseMergeLine
      specialTokens := ts } ∧ SpecialsOk ts := by
  unfold loadFromVocabMerges at h
  split at h
  · exact absurd h (fail_ne_ok _ _ _)
  cases h
  refine ⟨_, rfl, sortSpecials_ok fun hmem => ?_⟩
  apply ((mem_foldl_insert _ _).mp hmem).elim
  · exact List.not_mem_nil
  · intro hmem
    have := (List.mem_filter.mp hmem).2
    simp [controlLike] at this

end BpeTokenizer

open BpeTokenizer

theorem rawBytes_ne_nil {s : String} (h : s ≠ "") : rawBytes s ≠ [] := by
  simpa [rawBytes] using h

theorem bosToken_ne_nil {config : Option Value} {t : Bytes} (h : bosToken config = some t) : t ≠ [] := by
  unfold bosToken at h
  repeat' split at h
  · next hb =>
    rw [← Option.some.inj h]
    exact rawBytes_ne_nil hb.2
  all_goals cases h

theorem fromTokenizerJson_loaded {root : Object} {config : Option Value} {T : BpeTokenizer}
    (h : fromTokenizerJson root config = .ok T) : ∃ model tokens,
      root.get "model" = some (.obj model) ∧ modelTokens model = .ok tokens ∧ T.Loaded root config tokens := by
  unfold fromTokenizerJson at h
  split at h
  · next model hmodel =>
    split at h
    · exact absurd h (fail_ne_ok _ _ _)
    obtain ⟨tokens, htokens, h⟩ := bind_ok h
    split at h
    · exact absurd h (fail_ne_ok _ _ _)
    obtain ⟨tok, htok, h⟩ := bind_ok h
    obtain ⟨ts, heq, hts⟩ := loadFromVocabMerges_eq htok
    have hreg := foldl_registered (contents root) (tok.configure (preTokenizer root))
    generalize (contents root).foldl registerSpecial (tok.configure (preTokenizer root)) = T' at hreg h
    have hids : T'.tokenToId = (tokens.zipIdx.map fun e => (e.1, (e.2 : Int))).reverse := by
      rw [hreg.frame, heq]
      rfl
    have hpre : T'.pretokenize = decide (T'.metaspace = []) := by
      rw [hreg.frame]
      rfl
    have hadd : T'.addBos = false := by
      rw [hreg.frame, heq]
      rfl
    have hbos : (T'.withBos (bosToken config)).bosIds = [] ↔ bosToken config = none :=
      withBos_bosIds (fun t i hi => ?_) hpre hadd fun t => bosToken_ne_nil
    · obtain ⟨ts', b, i, hframe, hkeep, hok⟩ := withBos_frame T' (bosToken config)
      have hok' : SpecialsOk T'.specialTokens := hreg.ok (by rw [heq]; exact hts)
      have hT : T'.withBos (bosToken config) = T := Except.ok.inj h
      rw [hT] at hframe hbos
      refine ⟨model, tokens, hmodel, htokens, ?_, ?_, ?_, ?_, ?_, ?_, hbos⟩
      · rw [hframe]
        exact hids
      · rw [hframe, hreg.frame, heq]
        rfl
      · rw [hframe]
        exact hok hok'
      · intro t ht hne
        rw [hframe]
        exact hkeep t (hreg.adds t ht hne)
      · rw [hframe, hreg.frame]
        rfl
      · rw [hframe]
        exact hpre
    · unfold idOf at hi
      rw [hids] at hi
      exact ((find_last tokens).mp hi).1.1
  · exact absurd h (fail_ne_ok _ _ _)

/-! ## Added tokens -/

def modelVocab (root : Object) : Object :=
  match root.get "model" with
  | some (.obj model) => match Object.get model "vocab" with
    | some (.obj vocab) => vocab
    | _ => []
  | _ => []

/-- The vocabulary lists `token` as the last of the keys numbered `id`, and as that of no later number. -/
def VocabHas (root : Object) (token : Bytes) (id : Int) : Prop :=
  (0 ≤ id ∧ lastToken (numericEntries (modelVocab root)) id = some token) ∧
    ∀ id', id < id' → lastToken (numericEntries (modelVocab root)) id' ≠ some token

/-- An entry of `added_tokens` with its id. -/
def AddedToken (root : Object) (id : Int) (content : Bytes) : Prop :=
  ∃ entry : Object, .obj entry ∈ addedTokens root ∧ addedContent (.obj entry) = some content ∧ entry.get "id" = some (.num id)

theorem modelTokens_get {root model : Object} {tokens : List Bytes} (hm : root.get "model" = some (.obj model))
    (h : modelTokens model = .ok tokens) {t : Bytes} (ht : t ≠ []) (id : Int) : 0 ≤ id ∧ tokens[id.toNat]? = some t ↔
      0 ≤ id ∧ lastToken (numericEntries (modelVocab root)) id = some t := by
  unfold modelTokens at h
  unfold modelVocab
  rw [hm]
  dsimp only
  split at h
  · exact vocabTokens_get h ht
  · cases h
    simp [numericEntries, lastToken]

namespace BpeTokenizer

variable {T : BpeTokenizer} {root : Object} {config : Option Value}

theorem Loaded.idOf_iff_vocab {model : Object} {tokens : List Bytes} (h : T.Loaded root config tokens)
    (hm : root.get "model" = some (.obj model)) (hk : modelTokens model = .ok tokens) {t : Bytes} (ht : t ≠ []) {id : Int} :
    T.idOf t = some id ↔ VocabHas root t id := by
  have hget := modelTokens_get hm hk ht
  rw [h.idOf_iff, VocabHas, hget]
  refine and_congr_right fun h0 => forall₂_congr fun id' hlt => not_congr ?_
  have h0' : 0 ≤ id' := by omega
  simpa [h0'] using hget id'

/-- No special token is cut out of the text; its pieces have this one id, and the id's token spells the text. -/
structure SpelledAsText (T : BpeTokenizer) (id : Int) (text : Bytes) : Prop where
  unhit : ∀ t, t <:+ T.marked text → t ≠ [] → T.specialAt t = none
  chunk : T.encodeChunk (T.marked text) = [id]
  token : ∃ tok, (0 ≤ id ∧ T.idToToken[id.toNat]? = some tok) ∧ T.spelling tok = text

/-- An added token is one id, and that id the token, exactly when the vocabulary lists it under the id and nothing
    is put in front of a text; or when the ordinary pieces happen to do it. -/
theorem added_token_iff (h : fromTokenizerJson root config = .ok T) {id : Int} {content : Bytes}
    (hadd : AddedToken root id content) (hne : content ≠ []) :
    (T.encode content = [id] ∧ T.decode [id] = content) ↔
      bosToken config = none ∧
        (((preTokenizer root).metaspace = [] ∧ VocabHas root content id) ∨ T.SpelledAsText id content) := by
  obtain ⟨model, tokens, hm, hk, hT⟩ := fromTokenizerJson_loaded h
  have hspec : content ∈ T.specialTokens := by
    obtain ⟨entry, hentry, hcontent, -⟩ := hadd
    exact hT.registered content (List.mem_append_left _ (List.mem_filterMap.mpr ⟨_, hentry, hcontent⟩)) hne
  have hmarked := marked_ne_nil (T := T) hne
  have henc := encode_special hspec hT.pretokenize
  have hspell : ∀ tok, tok ∈ T.specialTokens → T.spelling tok = tok := fun tok htok => by simp [spelling, isSpecial, htok]
  rw [decode_single_iff hne, henc, ← hT.bos, ← hT.metaspace, ← hT.idOf_iff_vocab hm hk hne]
  apply Iff.intro
  · rintro ⟨hids, tok, htok, hsp⟩
    have hbos : T.bosIds = [] := by
      by_contra hb
      have hlen := congrArg List.length hids
      have := List.length_pos_iff.mpr hb
      have := List.length_pos_iff.mpr (encodeFrom_ne_nil (T := T) hmarked (Nat.le_refl _))
      rw [List.length_append, List.length_singleton] at hlen
      omega
    rw [hbos, List.nil_append] at hids
    refine ⟨hbos, ?_⟩
    apply (encodeFrom_single hT.specials.nonempty hmarked (Nat.le_refl _) hids).elim
    · rintro ⟨hmem, hid⟩
      -- the one special token that was cut out is the whole text, and is what the id stands for
      have htok' : T.marked content = tok := by
        have := (hT.idOf_iff.mp hid).1.2
        rw [← hT.tokens, htok.2] at this
        exact (Option.some.inj this).symm
      rw [← htok', hspell _ hmem] at hsp
      refine .inl ⟨?_, hsp ▸ hid⟩
      by_contra hms
      have := marked_length hms hne
      rw [hsp] at this
      omega
    · rintro ⟨hunhit, hchunk⟩
      exact .inr ⟨hunhit, hchunk, tok, htok, hsp⟩
  · rintro ⟨hbos, hcase⟩
    rw [hbos, List.nil_append]
    apply hcase.elim
    · rintro ⟨hms, hid⟩
      have hself : T.marked content = content := by rw [marked, if_pos hms]
      have hat := specialAt_longest hT.specials hspec (by rw [hid]; rfl) (List.prefix_refl _) fun _ _ hpre => hpre.length_le
      refine ⟨?_, content, ?_, hspell content hspec⟩
      · obtain ⟨c, s, rfl⟩ := List.exists_cons_of_ne_nil hne
        rw [hself, List.length_cons, encodeFrom, hat]
        simp [hid, encodeFrom_nil]
      · rw [hT.tokens]
        exact (hT.idOf_iff.mp hid).1
    · intro hs
      exact ⟨(encodeFrom_unhit hmarked (Nat.le_refl _) hs.unhit).trans hs.chunk, hs.token⟩

/-- A file that adds `<s>` as the token 1. -/
def tokenizerFile (vocab : Object) : Object :=
  [("added_tokens", .arr [.obj [("content", .str "<s>"), ("id", .num 1)]]),
    ("model", .obj [("type", .str "BPE"), ("vocab", .obj vocab)])]

theorem tokenizerFile_adds (vocab : Object) : AddedToken (tokenizerFile vocab) 1 (rawBytes "<s>") :=
  ⟨[("content", .str "<s>"), ("id", .num 1)], by simp [addedTokens, tokenizerFile, Object.get],
    by simp [addedContent, Object.get], by simp [Object.get]⟩

/-- What it loads as. -/
def fileTokenizer (tokens : List Bytes) : BpeTokenizer :=
  { empty with
    tokenToId := (tokens.zipIdx.map fun e => (e.1, (e.2 : Int))).reverse
    idToToken := tokens
    specialTokens := [[0x3C, 0x73, 0x3E]]
    pretokenize := true }

theorem tokenizerFile_loads {vocab : Object} {tokens : List Bytes} (h : vocabTokens vocab = .ok tokens) (hne : tokens ≠ [])
    (hshort : ∀ t ∈ tokens, t.length < 5) :
    fromTokenizerJson (tokenizerFile vocab) none = .ok (fileTokenizer tokens) := by
  have hbare : ensureSpecials
      { empty with
        tokenToId := (tokens.zipIdx.map fun e => (e.1, (e.2 : Int))).reverse
        idToToken := tokens } =
      { empty with
        tokenToId := (tokens.zipIdx.map fun e => (e.1, (e.2 : Int))).reverse
        idToToken := tokens
        specialTokens := (ofTokens tokens).specialTokens } := rfl
  have hpre : preTokenizer (tokenizerFile vocab) = ⟨false, []⟩ := by simp [preTokenizer, tokenizerFile, Object.get, walkPre]
  have hcontents : contents (tokenizerFile vocab) = [[0x3C, 0x73, 0x3E], []] := by
    simp [contents, addedTokens, addedContent, tokenizerFile, Object.get, strField, rawBytes]
  have hmodel : (tokenizerFile vocab).get "model" = some (.obj [("type", .str "BPE"), ("vocab", .obj vocab)]) := by
    simp [tokenizerFile, Object.get]
  have htype : (strField [("type", .str "BPE"), ("vocab", .obj vocab)] "type" "").toList.map Char.toLower = ['b', 'p', 'e'] := by
    simp [strField, Object.get]
  have hvocab : modelTokens [("type", .str "BPE"), ("vocab", .obj vocab)] = .ok tokens := by
    simpa [modelTokens, Object.get] using h
  have hmerges : mergeLines [("type", .str "BPE"), ("vocab", .obj vocab)] = [] := by simp [mergeLines, Object.get]
  rw [fromTokenizerJson, hmodel]
  simp only [htype, hvocab, hmerges, ok_bind, if_neg hne, hpre, hcontents, bosToken, withBos, loadFromVocabMerges]
  rw [if_neg (by simp), List.filterMap_nil]
  have hload := congrArg (fun T => [[0x3C, 0x73, 0x3E], []].foldl registerSpecial (T.configure ⟨false, []⟩)) hbare
  refine congrArg Except.ok (hload.trans ?_)
  simp [configure, registerSpecial, (ofTokens_bare hshort).specials, sortSpecials, fileTokenizer, empty]

theorem castI64_small : castI64 0 = .ok 0 ∧ castI64 1 = .ok 1 ∧ castUnsigned 64 0 = .ok 0 ∧ castUnsigned 64 1 = .ok 1 := by
  refine ⟨?_, ?_, ?_, ?_⟩
  · simpa using (Ir.castI64_int (n := 0) (k := 0) (by norm_num) (by norm_num)).mpr rfl
  · simpa using (Ir.castI64_int (n := 1) (k := 1) (by norm_num) (by norm_num)).mpr rfl
  · simpa using (Ir.castUnsigned_int (show 0 < 2 ^ 64 by norm_num)).mpr (rfl : (0 : Int) = (0 : Nat))
  · simpa using (Ir.castUnsigned_int (show 1 < 2 ^ 64 by norm_num)).mpr (rfl : (1 : Int) = (1 : Nat))

theorem vocabTokens_a : vocabTokens [("a", .num 0)] = .ok [rawBytes "a"] := by
  obtain ⟨h0, -, h0', -⟩ := castI64_small
  simp [vocabTokens, maxId, numericEntries, setToken, h0, h0']

theorem vocabTokens_as : vocabTokens [("<s>", .num 1), ("a", .num 0)] = .ok [rawBytes "a", rawBytes "<s>"] := by
  obtain ⟨h0, h1, h0', h1'⟩ := castI64_small
  simp [vocabTokens, maxId, numericEntries, setToken, h0, h0', h1, h1']

/-- Listed, it is its id. -/
theorem listed_token_is_its_id :
    (fileTokenizer [rawBytes "a", rawBytes "<s>"]).encode (rawBytes "<s>") = [1] ∧
      (fileTokenizer [rawBytes "a", rawBytes "<s>"]).decode [1] = rawBytes "<s>" := by
  have hload := tokenizerFile_loads vocabTokens_as (by simp) (by simp [rawBytes])
  refine (added_token_iff hload (tokenizerFile_adds _) (by simp [rawBytes])).mpr ⟨rfl, .inl ⟨?_, ?_⟩⟩
  · simp [preTokenizer, tokenizerFile, Object.get, walkPre]
  · have h0 : trunc 0 = 0 := by simpa using Ir.trunc_int 0
    have h1 : trunc 1 = 1 := by simpa using Ir.trunc_int 1
    refine ⟨⟨by decide, ?_⟩, fun id hid => ?_⟩
    · simp [modelVocab, tokenizerFile, Object.get, numericEntries, lastToken_cons, h1]
      simp [lastToken, h0]
    · have h0' : ¬ (0 : Int) = id := by omega
      have h1' : ¬ (1 : Int) = id := by omega
      simp [modelVocab, tokenizerFile, Object.get, numericEntries, lastToken, h0, h1, h0', h1']

/-- Unlisted, it is three unknown pieces, and its id is nothing. -/
theorem unlisted_token_is_spelled :
    fromTokenizerJson (tokenizerFile [("a", .num 0)]) none = .ok (fileTokenizer [rawBytes "a"]) ∧
      AddedToken (tokenizerFile [("a", .num 0)]) 1 (rawBytes "<s>") ∧
      (fileTokenizer [rawBytes "a"]).encode (rawBytes "<s>") = [0, 0, 0] ∧ (fileTokenizer [rawBytes "a"]).decode [1] = [] := by
  refine ⟨tokenizerFile_loads vocabTokens_a (by simp) (by simp [rawBytes]), tokenizerFile_adds _, ?_, ?_⟩
  · have hs : rawBytes "<s>" = [0x3C, 0x73, 0x3E] := by simp [rawBytes]
    have ha : rawBytes "a" = [0x61] := by simp [rawBytes]
    rw [hs, ha]
    decide +kernel
  · have ha : rawBytes "a" = [0x61] := by simp [rawBytes]
    rw [ha]
    decide +kernel

end BpeTokenizer

end Uaii.Tokenizers
