/-
  Uaii.Tokenizers.SplitLoops — `gpt2_regex_split` and what it calls, loop by loop
  (`libs/uaii-tokenizers/src/bpe_tokenizer.cpp`).

  A loop walks with an index: the byte index of `utf8_next`, `q` to the end of a piece,
  `p` from piece to piece. Each has fuel, and none of it left is no result.

  Proved: with more fuel than the text has bytes every loop ends, and the pieces are
  those of `gpt2RegexSplit` (`splitLoop_eq`); of a valid text no piece is empty and the
  pieces are the text (`split_lossless`).
-/

import Uaii.Lib.Loops
import Uaii.Tokenizers.Gpt2Split

namespace Uaii.Tokenizers

open Loops

/-! ## The loops -/

/-- `utf8_next` at an index: the code point and the index after it. -/
def utf8NextAt (s : Bytes) (i : Nat) : Option (Nat × Nat) :=
  if s.length ≤ i then none
  else
    let byte := fun k => (s.getD k 0).toNat
    let c0 := byte i
    if c0 < 0x80 then some (c0, i + 1)
    else if c0 &&& 0xE0 = 0xC0 ∧ i + 1 < s.length then some ((c0 &&& 0x1F) <<< 6 ||| byte (i + 1) &&& 0x3F, i + 2)
    else if c0 &&& 0xF0 = 0xE0 ∧ i + 2 < s.length then
      some ((c0 &&& 0x0F) <<< 12 ||| (byte (i + 1) &&& 0x3F) <<< 6 ||| byte (i + 2) &&& 0x3F, i + 3)
    else if c0 &&& 0xF8 = 0xF0 ∧ i + 3 < s.length then
      some ((c0 &&& 0x07) <<< 18 ||| (byte (i + 1) &&& 0x3F) <<< 12 ||| (byte (i + 2) &&& 0x3F) <<< 6 ||| byte (i + 3) &&& 0x3F,
        i + 4)
    else some (c0, i + 1)

/-- `while (utf8_next(text, &i, &cp)) cps.push_back(cp)`. -/
def cpsTurn (text : Bytes) (s : Nat × List Nat) : Option (ForInStep (Nat × List Nat)) :=
  match utf8NextAt text s.1 with
  | none => some (.done s)
  | some (cp, i) => some (.yield (i, s.2 ++ [cp]))

def cpsLoop (fuel : Nat) (text : Bytes) : Option (List Nat) := (loop (cpsTurn text) fuel (0, [])).map (·.2)

/-- `contraction_len` at an index. -/
def contractionLenAt (cps : List Nat) (i : Nat) : Nat :=
  let eq := fun k b => isCased (cps.getD k 0) b
  if cps.length ≤ i ∨ cps.getD i 0 ≠ 0x27 then 0
  else if i + 1 < cps.length ∧ (eq (i + 1) 's' || eq (i + 1) 't' || eq (i + 1) 'm' || eq (i + 1) 'd') then 2
  else if i + 2 < cps.length ∧
      ((eq (i + 1) 'r' && eq (i + 2) 'e') || (eq (i + 1) 'v' && eq (i + 2) 'e') || (eq (i + 1) 'l' && eq (i + 2) 'l')) then 3
  else 0

/-- `q < cps.size() && p(cps[q])`. -/
def holdsAt (p : Nat → Bool) (cps : List Nat) (q : Nat) : Bool := q < cps.length && p (cps.getD q 0)

/-- `while (q < cps.size() && p(cps[q])) ++q`. -/
def scanTurn (p : Nat → Bool) (cps : List Nat) (q : Nat) : Option (ForInStep Nat) :=
  some (if holdsAt p cps q then .yield (q + 1) else .done q)

def scan (fuel : Nat) (p : Nat → Bool) (cps : List Nat) (q : Nat) : Option Nat := loop (scanTurn p cps) fuel q

/-- The end of the piece that starts at `p`. -/
def pieceEnd (fuel : Nat) (cps : List Nat) (p : Nat) : Option Nat :=
  if contractionLenAt cps p ≠ 0 then some (p + contractionLenAt cps p)
  else
    let q := if holdsAt isUnicodeSpace cps p && holdsAt (!isUnicodeSpace ·) cps (p + 1) then p + 1 else p
    if holdsAt isUnicodeLetter cps q then scan fuel isUnicodeLetter cps q
    else if holdsAt isUnicodeDigit cps q then scan fuel isUnicodeDigit cps q
    else if holdsAt isOther cps q then scan fuel isOther cps q
    else scan fuel isUnicodeSpace cps p

/-- `utf8_from_cps(cps, begin, end)`. -/
def utf8FromRange (cps : List Nat) (b e : Nat) : Bytes := utf8FromCps ((cps.drop b).take (e - b))

/-- `while (p < cps.size())`. -/
def splitTurn (fuel : Nat) (cps : List Nat) (s : Nat × List Bytes) : Option (ForInStep (Nat × List Bytes)) :=
  if s.1 < cps.length then (pieceEnd fuel cps s.1).map fun q => .yield (q, s.2 ++ [utf8FromRange cps s.1 q])
  else some (.done s)

def splitLoop (fuel : Nat) (text : Bytes) : Option (List Bytes) :=
  (cpsLoop fuel text).bind fun cps => (loop (splitTurn fuel cps) fuel (0, [])).map (·.2)

/-! ## Decoding -/

/-- The index is where the rest starts. -/
theorem utf8NextAt_eq (s : Bytes) (i : Nat) :
    utf8NextAt s i = (utf8Next (s.drop i)).map fun r => (r.1, s.length - r.2.length) := by
  by_cases hend : s.length ≤ i
  · rw [List.drop_eq_nil_of_le hend, utf8NextAt, if_pos hend]
    rfl
  · have hlt : i < s.length := Nat.lt_of_not_le hend
    have hbyte : ∀ k, tailBits (s.drop (i + 1)) k = (s.getD (i + 1 + k) 0).toNat &&& 0x3F := by
      intro k
      rw [tailBits, List.getD_eq_getElem?_getD, List.getElem?_drop, ← List.getD_eq_getElem?_getD]
    have hhead : s.getD i 0 = s[i] := by rw [List.getD_eq_getElem?_getD, List.getElem?_eq_getElem hlt, Option.getD_some]
    have hlen : ∀ k, k ≤ (s.drop (i + 1)).length ↔ i + k < s.length := by
      intro k
      rw [List.length_drop]
      omega
    rw [List.drop_eq_getElem_cons hlt, utf8Next, utf8NextAt, if_neg hend]
    simp only [hhead, hbyte, hlen, List.drop_drop]
    split_ifs <;> simp only [Option.map_some, List.length_drop] <;> congr 2 <;> omega

theorem codepointsFrom_length : ∀ (fuel : Nat) (s : Bytes), (codepointsFrom fuel s).length ≤ fuel := by
  intro fuel
  induction fuel with
  | zero => exact fun s => Nat.le_refl _
  | succ fuel ih =>
    intro s
    rw [codepointsFrom]
    cases utf8Next s with
    | none => exact Nat.zero_le _
    | some r => exact Nat.succ_le_succ (ih r.2)

theorem codepoints_end {s : Bytes} (h : utf8Next s = none) : codepoints s = [] := by
  cases s with
  | nil => rfl
  | cons c s =>
    rw [utf8Next] at h
    split_ifs at h

theorem cpsLoop_eq {fuel : Nat} {text : Bytes} (hfuel : text.length < fuel) : cpsLoop fuel text = some (codepoints text) := by
  have hturn : ∀ s : Nat × List Nat, (s.1 ≤ text.length ∧ s.2 ++ codepoints (text.drop s.1) = codepoints text) →
      Turns (cpsTurn text) (fun s => s.1 ≤ text.length ∧ s.2 ++ codepoints (text.drop s.1) = codepoints text)
        (fun s => s.2 = codepoints text) (fun s => text.length - s.1) s := by
    intro s hs
    obtain ⟨i, cps⟩ := s
    obtain ⟨hi, hcps⟩ := hs
    dsimp only at hi hcps
    cases hnext : utf8Next (text.drop i) with
    | none =>
      refine .inl ⟨(i, cps), ?_, ?_⟩
      · rw [cpsTurn, utf8NextAt_eq, hnext]
        rfl
      · rwa [codepoints_end hnext, List.append_nil] at hcps
    | some r =>
      obtain ⟨cp, rest⟩ := r
      obtain ⟨k, hk, hle, hrest⟩ := utf8Next_drop hnext
      rw [List.length_drop] at hle
      rw [List.drop_drop] at hrest
      have hend : text.length - rest.length = i + k := by
        rw [hrest, List.length_drop]
        omega
      refine .inr ⟨(i + k, cps ++ [cp]), ?_, ⟨by dsimp only; omega, ?_⟩, by dsimp only; omega⟩
      · rw [cpsTurn, utf8NextAt_eq, hnext]
        simp only [Option.map_some, hend]
      · rw [codepoints_next hnext, hrest] at hcps
        rw [List.append_assoc]
        exact hcps
  obtain ⟨s, hloop, hs⟩ := loop_ends hturn (s := (0, [])) ⟨Nat.zero_le _, rfl⟩ hfuel
  rw [cpsLoop, hloop, Option.map_some, hs]

/-! ## The end of a piece -/

theorem holdsAt_eq (p : Nat → Bool) (cps : List Nat) (q : Nat) : holdsAt p cps q = (cps[q]?.map p).getD false := by
  unfold holdsAt
  by_cases hq : q < cps.length
  · rw [List.getD_eq_getElem?_getD, List.getElem?_eq_getElem hq, decide_eq_true hq]
    rfl
  · rw [List.getElem?_eq_none (Nat.le_of_not_lt hq), decide_eq_false hq]
    rfl

theorem runFrom_step (p : Nat → Bool) (cps : List Nat) (q : Nat) :
    runFrom p cps q = if holdsAt p cps q then runFrom p cps (q + 1) else q := by
  unfold runFrom
  by_cases hq : q < cps.length
  · have hget : cps.getD q 0 = cps[q] := by rw [List.getD_eq_getElem?_getD, List.getElem?_eq_getElem hq, Option.getD_some]
    rw [List.drop_eq_getElem_cons hq, holdsAt, hget, decide_eq_true hq, Bool.true_and]
    by_cases hp : p cps[q] = true
    · rw [if_pos hp, List.takeWhile_cons_of_pos hp, List.length_cons]
      omega
    · rw [if_neg hp, List.takeWhile_cons_of_neg hp]
      rfl
  · rw [List.drop_eq_nil_of_le (Nat.le_of_not_lt hq), holdsAt, decide_eq_false hq, Bool.false_and, if_neg (by decide)]
    rfl

theorem scan_eq {fuel : Nat} (p : Nat → Bool) {cps : List Nat} {q : Nat} (hfuel : cps.length - q < fuel) :
    scan fuel p cps q = some (runFrom p cps q) := by
  have hturn : ∀ q', runFrom p cps q' = runFrom p cps q →
      Turns (scanTurn p cps) (fun q' => runFrom p cps q' = runFrom p cps q) (fun q' => q' = runFrom p cps q)
        (fun q' => cps.length - q') q' := by
    intro q' hq'
    rw [runFrom_step] at hq'
    by_cases hp : holdsAt p cps q' = true
    · rw [if_pos hp] at hq'
      have hlt : q' < cps.length := by
        rw [holdsAt, Bool.and_eq_true, decide_eq_true_eq] at hp
        exact hp.1
      exact .inr ⟨q' + 1, by rw [scanTurn, if_pos hp], hq', Nat.sub_succ_lt_self _ _ hlt⟩
    · rw [if_neg hp] at hq'
      exact .inl ⟨q', by rw [scanTurn, if_neg hp], hq'⟩
  obtain ⟨q', hloop, hq'⟩ := loop_ends hturn rfl hfuel
  rw [scan, hloop, hq']

/-- At the start of the text. -/
theorem contractionLenAt_zero (cps : List Nat) : contractionLenAt cps 0 = contractionLen cps := by
  cases cps with
  | nil => rfl
  | cons a cps =>
    by_cases ha : a = 0x27
    · subst ha
      cases cps with
      | nil => rfl
      | cons c cps =>
        cases cps with
        | nil => simp [contractionLenAt, contractionLen]
        | cons d cps => simp [contractionLenAt, contractionLen]
    · rw [contractionLen_eq ha]
      simp [contractionLenAt, ha]

theorem contractionLenAt_eq (cps : List Nat) (i : Nat) : contractionLenAt cps i = contractionLen (cps.drop i) := by
  have hget : ∀ k, (cps.drop i).getD k 0 = cps.getD (i + k) 0 := by
    intro k
    rw [List.getD_eq_getElem?_getD, List.getElem?_drop, ← List.getD_eq_getElem?_getD]
  have hlen : ∀ k, k < (cps.drop i).length ↔ i + k < cps.length := by
    intro k
    rw [List.length_drop]
    omega
  have hend : (cps.drop i).length ≤ 0 ↔ cps.length ≤ i := by
    rw [List.length_drop]
    omega
  rw [← contractionLenAt_zero]
  simp only [contractionLenAt, hget, hlen, hend, Nat.add_zero, Nat.zero_add]

theorem runFrom_drop (p : Nat → Bool) (cps : List Nat) (b q : Nat) : runFrom p cps (b + q) = b + runFrom p (cps.drop b) q := by
  rw [runFrom, runFrom, List.drop_drop, Nat.add_assoc]

theorem holdsAt_drop (p : Nat → Bool) (cps : List Nat) (b q : Nat) : holdsAt p cps (b + q) = ((cps.drop b)[q]?.map p).getD false := by
  rw [holdsAt_eq, List.getElem?_drop]

theorem pieceEnd_eq {fuel : Nat} {cps : List Nat} (hfuel : cps.length < fuel) (b : Nat) :
    pieceEnd fuel cps b = some (b + pieceLen (cps.drop b)) := by
  have hscan : ∀ p q, scan fuel p cps (b + q) = some (b + runFrom p (cps.drop b) q) := by
    intro p q
    rw [scan_eq p (by omega), runFrom_drop]
  have hspaces := hscan isUnicodeSpace 0
  rw [Nat.add_zero] at hspaces
  have hat : holdsAt isUnicodeSpace cps b = ((cps.drop b)[0]?.map isUnicodeSpace).getD false := holdsAt_drop isUnicodeSpace cps b 0
  unfold pieceEnd pieceLen
  rw [contractionLenAt_eq, hat, holdsAt_drop]
  by_cases hc : contractionLen (cps.drop b) ≠ 0
  · rw [if_pos hc, if_pos hc]
  rw [if_neg hc, if_neg hc]
  dsimp only
  generalize (((cps.drop b)[0]?.map isUnicodeSpace).getD false && ((cps.drop b)[1]?.map (!isUnicodeSpace ·)).getD false) = lead
  have hq : (if lead = true then b + 1 else b) = b + (if lead = true then 1 else 0) := by
    cases lead with
    | true => rfl
    | false => rfl
  rw [hq]
  generalize (if lead = true then 1 else 0) = q
  simp only [holdsAt_drop, hscan, hspaces]
  split_ifs <;> rfl

/-! ## The pieces -/

theorem piecesFrom_fuel : ∀ (fuel : Nat) (cps : List Nat), cps.length ≤ fuel → piecesFrom fuel cps = piecesFrom cps.length cps := by
  have hfrom : ∀ (fuel fuel' : Nat) (cps : List Nat), cps.length ≤ fuel → cps.length ≤ fuel' →
      piecesFrom fuel cps = piecesFrom fuel' cps := by
    intro fuel
    induction fuel with
    | zero =>
      intro fuel' cps h _
      rw [List.length_eq_zero_iff.mp (Nat.le_zero.mp h)]
      cases fuel' <;> rfl
    | succ fuel ih =>
      intro fuel' cps h h'
      cases cps with
      | nil => cases fuel' <;> rfl
      | cons c cps =>
        have hpos := pieceLen_pos (List.cons_ne_nil c cps)
        obtain ⟨n, rfl⟩ := Nat.exists_eq_add_of_lt (Nat.lt_of_lt_of_le (Nat.succ_pos _) h')
        rw [piecesFrom, piecesFrom]
        · rw [ih (0 + n) _ (by rw [List.length_drop]; omega) (by rw [List.length_drop]; omega)]
        · simp
        · simp
  exact fun fuel cps h => hfrom fuel cps.length cps h (Nat.le_refl _)

/-- The pieces from one piece on. -/
theorem pieces_next {cps : List Nat} (h : cps ≠ []) : piecesFrom cps.length cps =
    cps.take (pieceLen cps) :: piecesFrom (cps.drop (pieceLen cps)).length (cps.drop (pieceLen cps)) := by
  obtain ⟨c, rest, rfl⟩ := List.exists_cons_of_ne_nil h
  have hpos := pieceLen_pos h
  rw [List.length_cons, piecesFrom, piecesFrom_fuel]
  · rw [List.length_drop, List.length_cons]
    omega
  · exact fun hnil => h hnil

theorem piecesFrom_ne_nil : ∀ (fuel : Nat) (cps : List Nat), ∀ piece ∈ piecesFrom fuel cps, piece ≠ [] := by
  intro fuel
  induction fuel with
  | zero =>
    intro cps piece hp
    cases hp
  | succ fuel ih =>
    intro cps piece hp
    cases cps with
    | nil => cases hp
    | cons c cps =>
      have hpos := pieceLen_pos (List.cons_ne_nil c cps)
      rw [piecesFrom] at hp
      · rcases List.mem_cons.mp hp with rfl | hp
        · rw [Ne, List.take_eq_nil_iff, not_or]
          exact ⟨hpos.ne', List.cons_ne_nil c cps⟩
        · exact ih _ piece hp
      · simp

/-- All loops end, in what the functions on lists say. -/
theorem splitLoop_eq {fuel : Nat} {text : Bytes} (hfuel : text.length < fuel) : splitLoop fuel text = some (gpt2RegexSplit text) := by
  have hlen := codepointsFrom_length text.length text
  rw [splitLoop, cpsLoop_eq hfuel, Option.bind_some, gpt2RegexSplit]
  rw [← codepoints] at hlen
  generalize codepoints text = cps at hlen
  have hturn : ∀ s : Nat × List Bytes,
      s.2 ++ (piecesFrom (cps.drop s.1).length (cps.drop s.1)).map utf8FromCps = (piecesFrom cps.length cps).map utf8FromCps →
      Turns (splitTurn fuel cps)
        (fun s => s.2 ++ (piecesFrom (cps.drop s.1).length (cps.drop s.1)).map utf8FromCps = (piecesFrom cps.length cps).map utf8FromCps)
        (fun s => s.2 = (piecesFrom cps.length cps).map utf8FromCps) (fun s => cps.length - s.1) s := by
    intro s hs
    obtain ⟨p, pieces⟩ := s
    dsimp only at hs
    by_cases hp : p < cps.length
    · have hne : cps.drop p ≠ [] := by
        rw [Ne, List.drop_eq_nil_iff]
        omega
      have hpos := pieceLen_pos hne
      refine .inr ⟨(p + pieceLen (cps.drop p), pieces ++ [utf8FromCps ((cps.drop p).take (pieceLen (cps.drop p)))]), ?_, ?_, ?_⟩
      · rw [splitTurn, if_pos hp, pieceEnd_eq (by omega), Option.map_some, utf8FromRange, Nat.add_sub_cancel_left]
      · rw [pieces_next hne, List.map_cons, List.drop_drop] at hs
        rw [List.append_assoc]
        exact hs
      · dsimp only
        omega
    · rw [List.drop_eq_nil_of_le (Nat.le_of_not_lt hp)] at hs
      refine .inl ⟨(p, pieces), ?_, ?_⟩
      · rw [splitTurn, if_neg hp]
      · simpa [piecesFrom] using hs
  obtain ⟨s, hloop, hs⟩ := loop_ends hturn (s := (0, [])) rfl (show cps.length - 0 < fuel by omega)
  rw [hloop, Option.map_some, hs]

/-- The splitter ends, no piece is empty, and the pieces are the text. -/
theorem split_lossless (text : Bytes) (h : ValidUtf8 text) : ∃ pieces, (∀ fuel, text.length < fuel → splitLoop fuel text = some pieces) ∧
    (∀ piece ∈ pieces, piece ≠ []) ∧ pieces.flatten = text := by
  refine ⟨gpt2RegexSplit text, fun fuel => splitLoop_eq, fun piece hp => ?_, (gpt2RegexSplit_valid h).1⟩
  obtain ⟨cps, hcps, rfl⟩ := List.mem_map.mp hp
  obtain ⟨cp, rest, rfl⟩ := List.exists_cons_of_ne_nil (piecesFrom_ne_nil _ _ cps hcps)
  have hpos := utf8Encode_length_pos cp
  intro hnil
  have hlen := congrArg List.length hnil
  rw [utf8FromCps, List.flatMap_cons, List.length_append, List.length_nil] at hlen
  omega

/-- `a é`. -/
theorem accented_lossless : splitLoop 5 [0x61, 0x20, 0xC3, 0xA9] = some [[0x61], [0x20, 0xC3, 0xA9]] ∧
    ∃ pieces, (∀ fuel, 4 < fuel → splitLoop fuel [0x61, 0x20, 0xC3, 0xA9] = some pieces) ∧
      (∀ piece ∈ pieces, piece ≠ []) ∧ pieces.flatten = [0x61, 0x20, 0xC3, 0xA9] := by
  have hvalid : ValidUtf8 [0x61, 0x20, 0xC3, 0xA9] := ⟨['a', ' ', '\u00e9'], by decide⟩
  exact ⟨by decide, split_lossless [0x61, 0x20, 0xC3, 0xA9] hvalid⟩

end Uaii.Tokenizers
