/-
  Uaii.Tokenizers.Gpt2Split — `gpt2_regex_split`
  (`libs/uaii-tokenizers/src/bpe_tokenizer.cpp`) and the pattern it stands for.

  The pattern is read as a backtracking engine reads it; `\s` is the six ASCII characters
  of white space. Both divide a text by cuts that depend on a few characters around them
  (`codeCut`, `patternCut`).

  Proved: on ASCII text without apostrophes the pieces are the pattern's matches exactly
  when the white space of the text is as `Spaced` says: without vertical tabs, when every
  run of it that a word follows is one space (`split_iff`).

  As built, a run of white space is one piece, and a tab or a newline joins the word after
  it; the pattern leaves the run's last space to the word and joins no other
  (`indented_differs`). A vertical tab is no white space to the code.
-/

import Uaii.Lib.Regex
import Uaii.Tokenizers.Bpe
import Uaii.Tokenizers.BpeRoundTrip

namespace Uaii.Tokenizers

open Regex

/-! ## The pattern -/

def isAsciiLetter (c : Nat) : Bool := (0x41 ≤ c && c ≤ 0x5A) || (0x61 ≤ c && c ≤ 0x7A)

def isAsciiDigit (c : Nat) : Bool := 0x30 ≤ c && c ≤ 0x39

/-- `\s`. -/
def isWhite (c : Nat) : Bool := c ∈ [0x20, 0x09, 0x0A, 0x0B, 0x0C, 0x0D]

/-- `[^\sA-Za-z0-9]`. -/
def isSymbol (c : Nat) : Bool := !(isWhite c || isAsciiLetter c || isAsciiDigit c)

/-- ` ?p+`. -/
def spaced (p : Nat → Bool) : Regex Nat := .seq (.opt (.one (· == 0x20))) (.plus p)

/-- ` ?[A-Za-z]+| ?[0-9]+| ?[^\sA-Za-z0-9]+|\s+(?!\S)|\s+`. -/
def gpt2Pattern : Regex Nat :=
  .alt (spaced isAsciiLetter) (.alt (spaced isAsciiDigit) (.alt (spaced isSymbol)
    (.alt (.seq (.plus isWhite) (.notAhead (!isWhite ·))) (.plus isWhite))))

def gpt2Matches (text : Bytes) : List Bytes := (gpt2Pattern.findAll (codepoints text)).map utf8FromCps

/-! ## Kinds of characters -/

inductive Kind where
  | space
  | letter
  | digit
  | other
  deriving DecidableEq, Repr

/-- What the code takes a character for. -/
def codeKind (c : Nat) : Kind :=
  if isUnicodeSpace c then .space else if isUnicodeLetter c then .letter else if isUnicodeDigit c then .digit else .other

/-- What the pattern takes it for. -/
def patternKind (c : Nat) : Kind :=
  if isWhite c then .space else if isAsciiLetter c then .letter else if isAsciiDigit c then .digit else .other

theorem space_not_word {c : Nat} (h : isUnicodeSpace c = true) : isUnicodeLetter c = false ∧ isUnicodeDigit c = false := by
  simp only [isUnicodeSpace, decide_eq_true_eq, List.mem_cons, List.not_mem_nil, or_false] at h
  rcases h with rfl | rfl | rfl | rfl | rfl | rfl | rfl <;> decide

theorem digit_not_letter {c : Nat} (h : isUnicodeDigit c = true) : isUnicodeLetter c = false := by
  simp only [isUnicodeDigit, Bool.or_eq_true, Bool.and_eq_true, decide_eq_true_eq] at h
  simp only [isUnicodeLetter, Bool.or_eq_false_iff, Bool.and_eq_false_iff, decide_eq_false_iff_not]
  omega

theorem isUnicodeSpace_eq (c : Nat) : isUnicodeSpace c = (codeKind c == .space) := by
  unfold codeKind
  split_ifs <;> simp_all

theorem isUnicodeLetter_eq (c : Nat) : isUnicodeLetter c = (codeKind c == .letter) := by
  unfold codeKind
  by_cases h : isUnicodeSpace c = true
  · rw [if_pos h, (space_not_word h).1]
    rfl
  · rw [if_neg h]
    split_ifs <;> simp_all

theorem isUnicodeDigit_eq (c : Nat) : isUnicodeDigit c = (codeKind c == .digit) := by
  unfold codeKind
  by_cases h : isUnicodeSpace c = true
  · rw [if_pos h, (space_not_word h).2]
    rfl
  · rw [if_neg h]
    by_cases hd : isUnicodeDigit c = true
    · rw [digit_not_letter hd, hd]
      rfl
    · rw [Bool.eq_false_iff.mpr hd]
      split_ifs <;> simp_all

theorem isOther_eq (c : Nat) : isOther c = (codeKind c == .other) := by
  unfold isOther
  rw [isUnicodeSpace_eq, isUnicodeLetter_eq, isUnicodeDigit_eq]
  cases codeKind c <;> rfl

theorem isWhite_eq (c : Nat) : isWhite c = (patternKind c == .space) := by
  unfold patternKind
  split_ifs <;> simp_all

theorem white_not_word {c : Nat} (h : isWhite c = true) : isAsciiLetter c = false ∧ isAsciiDigit c = false := by
  simp only [isWhite, decide_eq_true_eq, List.mem_cons, List.not_mem_nil, or_false] at h
  rcases h with rfl | rfl | rfl | rfl | rfl | rfl <;> decide

theorem isAsciiLetter_eq (c : Nat) : isAsciiLetter c = (patternKind c == .letter) := by
  unfold patternKind
  by_cases h : isWhite c = true
  · rw [if_pos h, (white_not_word h).1]
    rfl
  · rw [if_neg h]
    split_ifs <;> simp_all

theorem isAsciiDigit_eq (c : Nat) : isAsciiDigit c = (patternKind c == .digit) := by
  unfold patternKind
  by_cases h : isWhite c = true
  · rw [if_pos h, (white_not_word h).2]
    rfl
  · rw [if_neg h]
    by_cases hd : isAsciiDigit c = true
    · have hl : isAsciiLetter c = false := by
        simp only [isAsciiDigit, Bool.and_eq_true, decide_eq_true_eq] at hd
        simp only [isAsciiLetter, Bool.or_eq_false_iff, Bool.and_eq_false_iff, decide_eq_false_iff_not]
        omega
      rw [hl, hd]
      rfl
    · rw [Bool.eq_false_iff.mpr hd]
      split_ifs <;> simp_all

theorem isSymbol_eq (c : Nat) : isSymbol c = (patternKind c == .other) := by
  unfold isSymbol
  rw [isWhite_eq, isAsciiLetter_eq, isAsciiDigit_eq]
  cases patternKind c <;> rfl

/-! ## The cuts of the code -/

/-- The kind of the character at an index. -/
def kindAt (kind : Nat → Kind) (cps : List Nat) (i : Nat) : Option Kind := cps[i]?.map kind

/-- Between two kinds; between white space and a word only after two characters of it. -/
def codeCut (cps : List Nat) (k : Nat) : Bool :=
  if kindAt codeKind cps (k - 1) = some .space then
    kindAt codeKind cps k ≠ some .space && (2 ≤ k && kindAt codeKind cps (k - 2) = some .space)
  else kindAt codeKind cps (k - 1) ≠ kindAt codeKind cps k

/-- Between two kinds, but for a space and a word; before the last white space that a word follows. -/
def patternCut (cps : List Nat) (k : Nat) : Bool :=
  if kindAt patternKind cps (k - 1) = some .space then
    if kindAt patternKind cps k = some .space then
      (kindAt patternKind cps (k + 1)).isSome && kindAt patternKind cps (k + 1) ≠ some .space
    else cps[k - 1]? ≠ some 0x20
  else kindAt patternKind cps (k - 1) ≠ kindAt patternKind cps k

/-- The length of the run of `kind` that begins with a character. -/
def kindRun (kind : Nat → Kind) (K : Kind) (cps : List Nat) : Nat := runLen (fun c => kind c == K) cps

/-- A run's characters are of its kind, and the next is not. -/
theorem kindRun_at (kind : Nat → Kind) (K : Kind) (cps : List Nat) (i : Nat) :
    (∀ j < kindRun kind K (cps.drop i), kindAt kind cps (i + j) = some K) ∧
      kindAt kind cps (i + kindRun kind K (cps.drop i)) ≠ some K := by
  apply And.intro
  · intro j hj
    obtain ⟨c, hc, hK⟩ := runLen_inside hj
    rw [List.getElem?_drop] at hc
    rw [kindAt, hc, Option.map_some, beq_iff_eq.mp hK]
  · intro hK
    obtain ⟨c, hc, hkind⟩ := Option.map_eq_some_iff.mp hK
    have hstop : (kind c == K) = false := runLen_stop (p := fun c => kind c == K) (s := cps.drop i) (by
      rw [List.getElem?_drop]
      exact hc)
    rw [hkind] at hstop
    simp at hstop

theorem kindRun_le (kind : Nat → Kind) (K : Kind) {cps : List Nat} {i : Nat} (hi : i ≤ cps.length) :
    i + kindRun kind K (cps.drop i) ≤ cps.length := by
  have hle := runLen_le (fun c => kind c == K) (cps.drop i)
  rw [List.length_drop] at hle
  unfold kindRun
  omega

theorem contractionLen_eq {c : Nat} (hc : c ≠ 0x27) (cps : List Nat) : contractionLen (c :: cps) = 0 := by
  unfold contractionLen
  split
  · rename_i heq
    cases heq
    exact absurd rfl hc
  · rename_i heq
    rfl

theorem runFrom_kind (K : Kind) (cps : List Nat) (q : Nat) :
    runFrom (fun c => codeKind c == K) cps q = q + kindRun codeKind K (cps.drop q) := rfl

/-- A piece that starts with a word. -/
theorem pieceLen_word {c : Nat} {cps : List Nat} (hc : c ≠ 0x27) (hK : codeKind c ≠ .space) :
    pieceLen (c :: cps) = kindRun codeKind (codeKind c) (c :: cps) := by
  unfold pieceLen
  rw [contractionLen_eq hc]
  simp only [funext isUnicodeSpace_eq, funext isUnicodeLetter_eq, funext isUnicodeDigit_eq, funext isOther_eq, runFrom_kind,
    List.getElem?_cons_zero, Option.map_some, Option.getD_some, beq_eq_false_iff_ne.mpr hK, ne_eq, not_true_eq_false, if_false,
    Bool.false_and, Bool.false_eq_true]
  generalize hkind : codeKind c = K at hK ⊢
  cases K with
  | space => exact absurd rfl hK
  | letter => simp
  | digit => simp
  | other => simp

/-- A piece of white space and a word. -/
theorem pieceLen_lead {c d : Nat} {cps : List Nat} (hc : c ≠ 0x27) (hspace : codeKind c = .space) (hK : codeKind d ≠ .space) :
    pieceLen (c :: d :: cps) = 1 + kindRun codeKind (codeKind d) (d :: cps) := by
  unfold pieceLen
  rw [contractionLen_eq hc]
  simp only [funext isUnicodeSpace_eq, funext isUnicodeLetter_eq, funext isUnicodeDigit_eq, funext isOther_eq, runFrom_kind,
    List.getElem?_cons_zero, List.getElem?_cons_succ, Option.map_some, Option.getD_some, hspace, beq_eq_false_iff_ne.mpr hK,
    ne_eq, not_true_eq_false, if_false, beq_self_eq_true, Bool.not_false, Bool.and_self, if_true]
  generalize hkind : codeKind d = K at hK ⊢
  cases K with
  | space => exact absurd rfl hK
  | letter => simp
  | digit => simp
  | other => simp

/-- A piece of white space. -/
theorem pieceLen_space {c : Nat} {cps : List Nat} (hc : c ≠ 0x27) (hspace : codeKind c = .space)
    (hnext : ∀ d, cps.head? = some d → codeKind d = .space) : pieceLen (c :: cps) = kindRun codeKind .space (c :: cps) := by
  have hlead : (((cps[0]?).map fun c => !(codeKind c == .space)).getD false) = false := by
    cases cps with
    | nil => rfl
    | cons d cps => simp [hnext d rfl]
  unfold pieceLen
  rw [contractionLen_eq hc]
  simp only [funext isUnicodeSpace_eq, funext isUnicodeLetter_eq, funext isUnicodeDigit_eq, funext isOther_eq, runFrom_kind,
    List.getElem?_cons_zero, List.getElem?_cons_succ, Option.map_some, Option.getD_some, hspace, hlead, ne_eq,
    not_true_eq_false, if_false, Bool.and_false, Bool.false_eq_true]
  simp

theorem piecesFrom_eq (fuel : Nat) (cps : List Nat) : piecesFrom fuel cps = takeBy pieceLen fuel cps := by
  induction fuel generalizing cps with
  | zero => rfl
  | succ fuel ih =>
    cases cps with
    | nil => rfl
    | cons c cps =>
      show _ :: piecesFrom fuel _ = _
      rw [ih]
      rfl

/-- A run of one kind that is not white space, for cuts between two kinds. -/
theorem cut_word {kind : Nat → Kind} {cps : List Nat} {cut : Nat → Bool}
    (hcut : ∀ k, kindAt kind cps (k - 1) ≠ some .space → cut k = decide (kindAt kind cps (k - 1) ≠ kindAt kind cps k))
    {i : Nat} {K : Kind} (hK : K ≠ .space) :
    (∀ k, i < k → k < i + kindRun kind K (cps.drop i) → cut k = false) ∧
      (0 < kindRun kind K (cps.drop i) → i + kindRun kind K (cps.drop i) < cps.length →
        cut (i + kindRun kind K (cps.drop i)) = true) := by
  obtain ⟨hin, hout⟩ := kindRun_at kind K cps i
  have hne : some K ≠ some Kind.space := fun h => hK (Option.some.inj h)
  generalize kindRun kind K (cps.drop i) = n at hin hout ⊢
  apply And.intro
  · intro k hlo hhi
    have hk := hin (k - i) (by omega)
    have hk' := hin (k - 1 - i) (by omega)
    rw [show i + (k - i) = k by omega] at hk
    rw [show i + (k - 1 - i) = k - 1 by omega] at hk'
    rw [hcut k (by rw [hk']; exact hne), hk', hk]
    simp
  · intro hpos _
    have hlast := hin (n - 1) (by omega)
    rw [show i + (n - 1) = i + n - 1 by omega] at hlast
    rw [hcut _ (by rw [hlast]; exact hne), hlast]
    simpa using Ne.symm hout

theorem codeCut_word (cps : List Nat) (k : Nat) (h : kindAt codeKind cps (k - 1) ≠ some .space) :
    codeCut cps k = decide (kindAt codeKind cps (k - 1) ≠ kindAt codeKind cps k) := if_neg h

theorem patternCut_word (cps : List Nat) (k : Nat) (h : kindAt patternKind cps (k - 1) ≠ some .space) :
    patternCut cps k = decide (kindAt patternKind cps (k - 1) ≠ kindAt patternKind cps k) := if_neg h

/-- A run of white space, when no word follows it or it is of two characters or more. -/
theorem codeCut_space (cps : List Nat) (i : Nat)
    (hlong : i + kindRun codeKind .space (cps.drop i) < cps.length → 2 ≤ kindRun codeKind .space (cps.drop i)) :
    (∀ k, i < k → k < i + kindRun codeKind .space (cps.drop i) → codeCut cps k = false) ∧
      (i + kindRun codeKind .space (cps.drop i) < cps.length →
        codeCut cps (i + kindRun codeKind .space (cps.drop i)) = true) := by
  obtain ⟨hin, hout⟩ := kindRun_at codeKind .space cps i
  generalize kindRun codeKind .space (cps.drop i) = n at hin hout hlong ⊢
  apply And.intro
  · intro k hlo hhi
    have hk := hin (k - i) (by omega)
    have hk' := hin (k - 1 - i) (by omega)
    rw [show i + (k - i) = k by omega] at hk
    rw [show i + (k - 1 - i) = k - 1 by omega] at hk'
    rw [codeCut, hk', hk, if_pos rfl]
    simp
  · intro hlt
    have htwo := hlong hlt
    have hlast := hin (n - 1) (by omega)
    have hbefore := hin (n - 2) (by omega)
    rw [show i + (n - 1) = i + n - 1 by omega] at hlast
    rw [show i + (n - 2) = i + n - 2 by omega] at hbefore
    rw [codeCut, hlast, hbefore, if_pos rfl]
    simp only [decide_true, Bool.and_true, Bool.and_eq_true, decide_eq_true_eq]
    exact ⟨by simpa using hout, by omega⟩

/-- A piece that begins with white space follows none. -/
theorem codeCut_first {cps : List Nat} {i : Nat} (hi : kindAt codeKind cps i = some .space) (hstart : i = 0 ∨ codeCut cps i = true) :
    codeCut cps (i + 1) = false := by
  rw [codeCut, Nat.add_sub_cancel, hi, if_pos rfl]
  rcases hstart with rfl | hcut
  · simp
  · rw [codeCut, hi] at hcut
    split at hcut
    · simp at hcut
    · rename_i hbefore
      rw [show i + 1 - 2 = i - 1 by omega]
      simp [hbefore]

/-- The pieces go from cut to cut. -/
theorem code_pieces {cps : List Nat} (h : ∀ c ∈ cps, c ≠ 0x27) : piecesFrom cps.length cps = chop (codeCut cps) 0 cps := by
  rw [piecesFrom_eq]
  refine takeBy_eq_chop fun i hi hstart => ?_
  have hdrop : cps.drop i = cps[i] :: cps.drop (i + 1) := List.drop_eq_getElem_cons hi
  have hc : cps[i] ≠ 0x27 := h _ (List.getElem_mem hi)
  have hkind : kindAt codeKind cps i = some (codeKind cps[i]) := by rw [kindAt, List.getElem?_eq_getElem hi, Option.map_some]
  have hpos : 0 < kindRun codeKind (codeKind cps[i]) (cps.drop i) := by
    rw [hdrop, kindRun, runLen_cons, beq_self_eq_true, if_pos rfl]
    exact Nat.succ_pos _
  by_cases hspace : codeKind cps[i] = .space
  · by_cases hword : ∃ d, cps[i + 1]? = some d ∧ codeKind d ≠ .space
    · obtain ⟨d, hd, hne⟩ := hword
      obtain ⟨hi', rfl⟩ := List.getElem?_eq_some_iff.mp hd
      have hdrop' : cps.drop (i + 1) = cps[i + 1] :: cps.drop (i + 2) := List.drop_eq_getElem_cons hi'
      have hlen : pieceLen (cps.drop i) = 1 + kindRun codeKind (codeKind cps[i + 1]) (cps.drop (i + 1)) := by
        rw [hdrop, hdrop', pieceLen_lead hc hspace hne]
      have hpos' : 0 < kindRun codeKind (codeKind cps[i + 1]) (cps.drop (i + 1)) := by
        rw [hdrop', kindRun, runLen_cons, beq_self_eq_true, if_pos rfl]
        exact Nat.succ_pos _
      have hle := kindRun_le codeKind (codeKind cps[i + 1]) (show i + 1 ≤ cps.length by omega)
      obtain ⟨hin, hend⟩ := cut_word (codeCut_word cps) (i := i + 1) hne
      rw [hlen, ← Nat.add_assoc]
      refine ⟨by omega, hle, fun hlt => hend hpos' hlt, fun k hlo hhi => ?_⟩
      by_cases hk : k = i + 1
      · rw [hk]
        exact codeCut_first (by rw [hkind, hspace]) hstart
      · exact hin k (by omega) hhi
    · have hnext : ∀ d, cps[i + 1]? = some d → codeKind d = .space := by
        intro d hd
        by_contra hne
        exact hword ⟨d, hd, hne⟩
      have hlen : pieceLen (cps.drop i) = kindRun codeKind .space (cps.drop i) := by
        rw [hdrop]
        refine pieceLen_space hc hspace fun d hd => hnext d ?_
        rw [List.head?_drop] at hd
        exact hd
      rw [hspace] at hpos
      have hle := kindRun_le codeKind .space hi.le
      obtain ⟨hin, hend⟩ := codeCut_space cps i fun hlt => by
        by_contra hone
        have hrun : kindRun codeKind .space (cps.drop i) = 1 := by omega
        have hstop := (kindRun_at codeKind .space cps i).2
        rw [hrun] at hstop hlt
        apply hstop
        rw [kindAt, List.getElem?_eq_getElem hlt, Option.map_some, hnext _ (List.getElem?_eq_getElem hlt)]
      rw [hlen]
      exact ⟨hpos, hle, hend, hin⟩
  · have hlen : pieceLen (cps.drop i) = kindRun codeKind (codeKind cps[i]) (cps.drop i) := by
      rw [hdrop, pieceLen_word hc hspace]
    obtain ⟨hin, hend⟩ := cut_word (codeCut_word cps) (i := i) hspace
    rw [hlen]
    exact ⟨hpos, kindRun_le codeKind _ hi.le, hend hpos, hin⟩

/-! ## The cuts of the pattern -/

theorem gpt2Pattern_eq : gpt2Pattern = .alt (spaced (patternKind · == .letter)) (.alt (spaced (patternKind · == .digit))
    (.alt (spaced (patternKind · == .other)) (.alt (.seq (.plus (patternKind · == .space))
      (.notAhead fun c => !(patternKind c == .space))) (.plus (patternKind · == .space))))) := by
  simp only [gpt2Pattern, funext isAsciiLetter_eq, funext isAsciiDigit_eq, funext isSymbol_eq, funext isWhite_eq]

/-- A word, after a space or not. -/
theorem head_spaced {K : Kind} (hK : K ≠ .space) (c : Nat) (cps : List Nat) :
    (rests (spaced (patternKind · == K)) (c :: cps)).head? =
      if c = 0x20 then (if kindRun patternKind K cps = 0 then none else some (cps.drop (kindRun patternKind K cps)))
      else if kindRun patternKind K (c :: cps) = 0 then none else some ((c :: cps).drop (kindRun patternKind K (c :: cps))) := by
  unfold kindRun
  rw [← head_plus, ← head_plus]
  show (((if (c == 0x20) = true then [cps] else []) ++ [c :: cps]).flatMap (plusRests (patternKind · == K))).head? = _
  by_cases hc : c = 0x20
  · subst hc
    have hno : (patternKind 0x20 == K) = false := beq_eq_false_iff_ne.mpr (Ne.symm hK)
    rw [if_pos rfl, if_pos (beq_self_eq_true _), List.flatMap_append, List.flatMap_singleton, List.flatMap_singleton, plusRests,
      hno]
    simp [rests]
  · rw [if_neg (by simpa using hc), if_neg hc, List.nil_append, List.flatMap_singleton]
    rfl

theorem kindRun_cons (kind : Nat → Kind) (K : Kind) (c : Nat) (cps : List Nat) :
    kindRun kind K (c :: cps) = if kind c = K then kindRun kind K cps + 1 else 0 := by
  rw [kindRun, runLen_cons]
  by_cases hK : kind c = K
  · rw [if_pos (by simpa using hK), if_pos hK]
    rfl
  · rw [if_neg (by simpa using hK), if_neg hK]

theorem kindRun_same (kind : Nat → Kind) (c : Nat) (cps : List Nat) : kindRun kind (kind c) (c :: cps) ≠ 0 := by
  rw [kindRun_cons, if_pos rfl]
  exact Nat.succ_ne_zero _

theorem kindRun_other {kind : Nat → Kind} {K : Kind} {c : Nat} (h : K ≠ kind c) (cps : List Nat) : kindRun kind K (c :: cps) = 0 := by
  rw [kindRun_cons, if_neg (Ne.symm h)]

/-- What is left by the words that start a text or follow its first space: `s` is where the word would start. -/
theorem head_words {s : List Nat} {d : Nat} {t : List Nat} (hs : s = d :: t) (hK : patternKind d ≠ .space) (rest : Option (List Nat)) :
    (if kindRun patternKind .letter s = 0 then none else some (s.drop (kindRun patternKind .letter s))).or
      ((if kindRun patternKind .digit s = 0 then none else some (s.drop (kindRun patternKind .digit s))).or
        ((if kindRun patternKind .other s = 0 then none else some (s.drop (kindRun patternKind .other s))).or rest)) =
      some (s.drop (kindRun patternKind (patternKind d) s)) := by
  have hsame := kindRun_same patternKind d t
  have hother : ∀ K, K ≠ patternKind d → kindRun patternKind K (d :: t) = 0 := fun K h => kindRun_other h t
  subst hs
  generalize hkind : patternKind d = K at *
  cases K with
  | space => exact absurd rfl hK
  | letter => rw [if_neg hsame, Option.some_or]
  | digit => rw [hother .letter (by decide), if_pos rfl, if_neg hsame, Option.none_or, Option.some_or]
  | other =>
    rw [hother .letter (by decide), hother .digit (by decide), if_pos rfl, if_neg hsame, Option.none_or, Option.none_or,
      Option.some_or]

/-- A match that starts with a word. -/
theorem first_word {c : Nat} {cps : List Nat} (hK : patternKind c ≠ .space) :
    gpt2Pattern.first (c :: cps) = some (kindRun patternKind (patternKind c) (c :: cps)) := by
  have hc : c ≠ 0x20 := by
    rintro rfl
    exact hK rfl
  have hle := runLen_le (patternKind · == patternKind c) (c :: cps)
  unfold first
  rw [gpt2Pattern_eq, head_alt, head_alt, head_alt, head_spaced (by decide), head_spaced (by decide), head_spaced (by decide),
    if_neg hc, if_neg hc, if_neg hc, head_words rfl hK, Option.map_some, List.length_drop]
  unfold kindRun
  congr 1
  omega

/-- A match of a space and a word. -/
theorem first_lead {d : Nat} {cps : List Nat} (hK : patternKind d ≠ .space) :
    gpt2Pattern.first (0x20 :: d :: cps) = some (1 + kindRun patternKind (patternKind d) (d :: cps)) := by
  have hle := runLen_le (patternKind · == patternKind d) (d :: cps)
  unfold first
  rw [gpt2Pattern_eq, head_alt, head_alt, head_alt, head_spaced (by decide), head_spaced (by decide), head_spaced (by decide),
    if_pos rfl, if_pos rfl, if_pos rfl, head_words rfl hK, Option.map_some, List.length_drop]
  unfold kindRun
  rw [List.length_cons] at hle ⊢
  congr 1
  rw [List.length_cons]
  omega

/-- A match of white space: all of it, or all but the last of two characters or more that a word follows. -/
theorem first_white {c : Nat} {cps : List Nat} (hspace : patternKind c = .space)
    (hnext : c = 0x20 → ∀ d, cps.head? = some d → patternKind d = .space) :
    gpt2Pattern.first (c :: cps) = some (if kindRun patternKind .space (c :: cps) = 1 ∨
        kindRun patternKind .space (c :: cps) = (c :: cps).length then kindRun patternKind .space (c :: cps)
      else kindRun patternKind .space (c :: cps) - 1) := by
  have hno : ∀ K, K ≠ .space → (rests (spaced (patternKind · == K)) (c :: cps)).head? = none := by
    intro K hK
    rw [head_spaced hK]
    by_cases hc : c = 0x20
    · rw [if_pos hc, if_pos ?_]
      cases cps with
      | nil => rfl
      | cons d cps => exact kindRun_other (by rw [hnext hc d rfl]; exact hK) cps
    · rw [if_neg hc, if_pos (kindRun_other (by rw [hspace]; exact hK) cps)]
  have hle : kindRun patternKind .space (c :: cps) ≤ (c :: cps).length := runLen_le _ _
  have hpos : kindRun patternKind .space (c :: cps) ≠ 0 := by
    rw [kindRun_cons, if_pos hspace]
    exact Nat.succ_ne_zero _
  have hplus : (rests (.plus (patternKind · == .space)) (c :: cps)).head? =
      some ((c :: cps).drop (kindRun patternKind .space (c :: cps))) := (head_plus _ _).trans (if_neg hpos)
  have hahead : (rests (.seq (.plus (patternKind · == .space)) (.notAhead fun d => !(patternKind d == .space))) (c :: cps)).head? =
      if kindRun patternKind .space (c :: cps) = (c :: cps).length then some []
      else if kindRun patternKind .space (c :: cps) = 1 then none
      else some ((c :: cps).drop (kindRun patternKind .space (c :: cps) - 1)) :=
    (head_plus_notAhead (patternKind · == .space) _).trans (if_neg hpos)
  unfold first
  rw [gpt2Pattern_eq, head_alt, head_alt, head_alt, head_alt, hno _ (by decide), hno _ (by decide), hno _ (by decide),
    Option.none_or, Option.none_or, Option.none_or, hplus, hahead]
  generalize kindRun patternKind .space (c :: cps) = n at *
  by_cases hend : n = (c :: cps).length
  · rw [if_pos hend, if_pos (.inr hend), Option.some_or, Option.map_some, hend]
    rfl
  · by_cases hone : n = 1
    · rw [if_neg hend, if_pos hone, if_pos (.inl hone), Option.none_or, Option.map_some, List.length_drop]
      congr 1
      omega
    · rw [if_neg hend, if_neg hone, if_neg (by simp only [hone, hend, or_self, not_false_eq_true]), Option.some_or,
        Option.map_some, List.length_drop]
      congr 1
      omega

theorem first_isSome {s : List Nat} (h : s ≠ []) : (gpt2Pattern.first s).isSome = true := by
  obtain ⟨c, cps, rfl⟩ := List.exists_cons_of_ne_nil h
  by_cases hspace : patternKind c = .space
  · by_cases hword : c = 0x20 ∧ ∃ d, cps.head? = some d ∧ patternKind d ≠ .space
    · obtain ⟨rfl, d, hd, hne⟩ := hword
      obtain ⟨t, rfl⟩ := List.head?_eq_some_iff.mp hd
      rw [first_lead hne]
      rfl
    · rw [first_white hspace fun hc d hd => by
        by_contra hne
        exact hword ⟨hc, d, hd, hne⟩]
      rfl
  · rw [first_word hspace]
    rfl

/-- A match of white space goes from cut to cut. -/
theorem patternCut_white {cps : List Nat} {i m : Nat} (hi : i < cps.length) (hm : kindRun patternKind .space (cps.drop i) = m)
    (hpos : 0 < m) (hnext : cps[i]? = some 0x20 → ∀ d, cps[i + 1]? = some d → patternKind d = .space) :
    ∀ n, n = (if m = 1 ∨ m = (cps.drop i).length then m else m - 1) → 0 < n ∧ i + n ≤ cps.length ∧
      (i + n < cps.length → patternCut cps (i + n) = true) ∧ ∀ k, i < k → k < i + n → patternCut cps k = false := by
  obtain ⟨hin, hout⟩ := kindRun_at patternKind .space cps i
  have hle := kindRun_le patternKind .space hi.le
  rw [hm] at hin hout hle
  rw [List.length_drop]
  -- before the last character of the run, or where the text ends with it
  have hinside : ∀ k, i < k → k < i + m → (i + m = cps.length ∨ k + 1 < i + m) → patternCut cps k = false := by
    intro k hlo hhi hlast
    have hk := hin (k - i) (by omega)
    have hk' := hin (k - 1 - i) (by omega)
    rw [show i + (k - i) = k by omega] at hk
    rw [show i + (k - 1 - i) = k - 1 by omega] at hk'
    rw [patternCut, hk', hk, if_pos rfl, if_pos rfl]
    by_cases hmore : k + 1 < i + m
    · have hafter := hin (k + 1 - i) (by omega)
      rw [show i + (k + 1 - i) = k + 1 by omega] at hafter
      rw [hafter]
      rfl
    · have hnone : kindAt patternKind cps (k + 1) = none := by
        rw [kindAt, List.getElem?_eq_none (by omega)]
        rfl
      rw [hnone]
      rfl
  intro n hn
  by_cases hall : m = 1 ∨ m = cps.length - i
  · rw [if_pos hall] at hn
    subst hn
    refine ⟨hpos, hle, fun hlt => ?_, fun k hlo hhi => hinside k hlo hhi (by omega)⟩
    obtain rfl : n = 1 := by omega
    have hfirst : kindAt patternKind cps i = some .space := hin 0 (by omega)
    rw [patternCut, Nat.add_sub_cancel, hfirst, if_pos rfl, if_neg hout]
    refine decide_eq_true fun hspace => hout ?_
    rw [kindAt, List.getElem?_eq_getElem hlt, Option.map_some, hnext hspace _ (List.getElem?_eq_getElem hlt)]
  · rw [if_neg hall] at hn
    subst hn
    refine ⟨by omega, by omega, fun hlt => ?_, fun k hlo hhi => hinside k hlo (by omega) (by omega)⟩
    have hlast := hin (m - 1) (by omega)
    have hbefore := hin (m - 2) (by omega)
    rw [show i + (m - 2) = i + (m - 1) - 1 by omega] at hbefore
    rw [show i + m = i + (m - 1) + 1 by omega] at hout
    have hsome : (kindAt patternKind cps (i + (m - 1) + 1)).isSome = true := by
      rw [kindAt, List.getElem?_eq_getElem (show i + (m - 1) + 1 < cps.length by omega)]
      rfl
    rw [patternCut, hbefore, hlast, if_pos rfl, if_pos rfl, hsome]
    simpa using hout

/-- The matches go from cut to cut. -/
theorem pattern_pieces (cps : List Nat) : gpt2Pattern.findAll cps = chop (patternCut cps) 0 cps := by
  rw [findAll_eq_takeBy fun s hs => first_isSome hs]
  refine takeBy_eq_chop fun i hi _ => ?_
  have hdrop : cps.drop i = cps[i] :: cps.drop (i + 1) := List.drop_eq_getElem_cons hi
  have hkind : kindAt patternKind cps i = some (patternKind cps[i]) := by
    rw [kindAt, List.getElem?_eq_getElem hi, Option.map_some]
  have hpos : 0 < kindRun patternKind (patternKind cps[i]) (cps.drop i) := by
    rw [hdrop]
    exact Nat.pos_of_ne_zero (kindRun_same _ _ _)
  by_cases hspace : patternKind cps[i] = .space
  · by_cases hword : cps[i] = 0x20 ∧ ∃ d, cps[i + 1]? = some d ∧ patternKind d ≠ .space
    · obtain ⟨hc, d, hd, hne⟩ := hword
      obtain ⟨hi', rfl⟩ := List.getElem?_eq_some_iff.mp hd
      have hdrop' : cps.drop (i + 1) = cps[i + 1] :: cps.drop (i + 2) := List.drop_eq_getElem_cons hi'
      have hlen : (gpt2Pattern.first (cps.drop i)).getD 0 =
          1 + kindRun patternKind (patternKind cps[i + 1]) (cps.drop (i + 1)) := by
        rw [hdrop, hc, hdrop', first_lead hne, Option.getD_some]
      have hpos' : 0 < kindRun patternKind (patternKind cps[i + 1]) (cps.drop (i + 1)) := by
        rw [hdrop']
        exact Nat.pos_of_ne_zero (kindRun_same _ _ _)
      have hle := kindRun_le patternKind (patternKind cps[i + 1]) (show i + 1 ≤ cps.length by omega)
      obtain ⟨hin, hend⟩ := cut_word (patternCut_word cps) (i := i + 1) hne
      rw [hlen, ← Nat.add_assoc]
      refine ⟨by omega, hle, fun hlt => hend hpos' hlt, fun k hlo hhi => ?_⟩
      by_cases hk : k = i + 1
      · have hnext : kindAt patternKind cps (i + 1) ≠ some .space := by
          rw [kindAt, hd, Option.map_some]
          exact fun h => hne (Option.some.inj h)
        rw [hk, patternCut, Nat.add_sub_cancel, hkind, hspace, if_pos rfl, if_neg hnext, List.getElem?_eq_getElem hi, hc]
        simp
      · exact hin k (by omega) hhi
    · have hnext : cps[i] = 0x20 → ∀ d, cps[i + 1]? = some d → patternKind d = .space := by
        intro hc d hd
        by_contra hne
        exact hword ⟨hc, d, hd, hne⟩
      have hfirst : gpt2Pattern.first (cps.drop i) = some (if kindRun patternKind .space (cps.drop i) = 1 ∨
          kindRun patternKind .space (cps.drop i) = (cps.drop i).length then kindRun patternKind .space (cps.drop i)
          else kindRun patternKind .space (cps.drop i) - 1) := by
        rw [hdrop]
        refine first_white hspace fun hc d hd => hnext hc d ?_
        rw [List.head?_drop] at hd
        exact hd
      rw [hspace] at hpos
      rw [hfirst, Option.getD_some]
      refine patternCut_white hi rfl hpos (fun hc => hnext ?_) _ rfl
      rw [List.getElem?_eq_getElem hi] at hc
      exact Option.some.inj hc
  · have hlen : (gpt2Pattern.first (cps.drop i)).getD 0 = kindRun patternKind (patternKind cps[i]) (cps.drop i) := by
      rw [hdrop, first_word hspace, Option.getD_some]
    obtain ⟨hin, hend⟩ := cut_word (patternCut_word cps) (i := i) hspace
    rw [hlen]
    exact ⟨hpos, kindRun_le patternKind _ hi.le, hend hpos, hin⟩

/-! ## White space on which they agree -/

/-- White space to the code. -/
def SpaceAt (cps : List Nat) (i : Nat) : Prop := kindAt codeKind cps i = some .space

def VtabAt (cps : List Nat) (i : Nat) : Prop := cps[i]? = some 0x0B

/-- No white space. -/
def WordAt (cps : List Nat) (i : Nat) : Prop := (kindAt patternKind cps i).isSome = true ∧ kindAt patternKind cps i ≠ some .space

def SymbolAt (cps : List Nat) (i : Nat) : Prop := kindAt patternKind cps i = some .other

/-- The white space of a text. Without a vertical tab only the first two say anything. -/
structure Spaced (cps : List Nat) : Prop where
  /-- No word follows two characters of white space, -/
  run : ∀ i, SpaceAt cps i → SpaceAt cps (i + 1) → ¬ WordAt cps (i + 2)
  /-- or one that is no space. -/
  single : ∀ i, SpaceAt cps i → WordAt cps (i + 1) → cps[i]? = some 0x20
  vtabSymbol : ∀ i, VtabAt cps i → ¬ SymbolAt cps (i + 1)
  symbolVtab : ∀ i, SymbolAt cps i → ¬ VtabAt cps (i + 1)
  vtabs : ∀ i, VtabAt cps i → VtabAt cps (i + 1) → ¬ WordAt cps (i + 2)
  vtabSpace : ∀ i, VtabAt cps i → SpaceAt cps (i + 1) → WordAt cps (i + 2)
  spaceVtab : ∀ i, SpaceAt cps i → VtabAt cps (i + 1) → (WordAt cps (i + 2) ↔ 0 < i ∧ SpaceAt cps (i - 1))

/-- What both take a character for. -/
inductive CharAt (cps : List Nat) (i : Nat) : Prop
  | space (hcode : kindAt codeKind cps i = some .space) (hpattern : kindAt patternKind cps i = some .space)
      (hvtab : ¬ VtabAt cps i)
  | vtab (hcode : kindAt codeKind cps i = some .other) (hpattern : kindAt patternKind cps i = some .space) (hvtab : VtabAt cps i)
  | word (K : Kind) (hK : K ≠ .space) (hcode : kindAt codeKind cps i = some K) (hpattern : kindAt patternKind cps i = some K)
      (hvtab : ¬ VtabAt cps i)

theorem codeKind_ascii {c : Nat} (h : c < 0x80) : codeKind c = if c = 0x0B then .other else patternKind c := by
  have hall : ∀ c : Fin 0x80, codeKind c.val = if c.val = 0x0B then .other else patternKind c.val := by decide +kernel
  exact hall ⟨c, h⟩

theorem charAt_of_ascii {cps : List Nat} (h : ∀ c ∈ cps, c < 0x80) {i : Nat} (hi : i < cps.length) : CharAt cps i := by
  have hget := List.getElem?_eq_getElem hi
  have hcode := codeKind_ascii (h _ (List.getElem_mem hi))
  have hC : kindAt codeKind cps i = some (codeKind cps[i]) := by rw [kindAt, hget, Option.map_some]
  have hP : kindAt patternKind cps i = some (patternKind cps[i]) := by rw [kindAt, hget, Option.map_some]
  by_cases hvt : cps[i] = 0x0B
  · rw [if_pos hvt] at hcode
    rw [hcode] at hC
    rw [hvt] at hP
    exact .vtab hC hP (by rw [VtabAt, hget, hvt])
  · have hno : ¬ VtabAt cps i := by
      rw [VtabAt, hget]
      exact fun he => hvt (Option.some.inj he)
    rw [if_neg hvt] at hcode
    rw [hcode] at hC
    by_cases hspace : patternKind cps[i] = .space
    · rw [hspace] at hC hP
      exact .space hC hP hno
    · exact .word _ hspace hC hP hno

theorem codeCut_succ (cps : List Nat) (i : Nat) : codeCut cps (i + 1) =
    if kindAt codeKind cps i = some .space then
      decide (kindAt codeKind cps (i + 1) ≠ some .space) && (decide (0 < i) && decide (kindAt codeKind cps (i - 1) = some .space))
    else decide (kindAt codeKind cps i ≠ kindAt codeKind cps (i + 1)) := by
  have htwo : decide (2 ≤ i + 1) = decide (0 < i) := decide_eq_decide.mpr (by omega)
  rw [codeCut, Nat.add_sub_cancel, show i + 1 - 2 = i - 1 by omega, htwo]

theorem patternCut_succ (cps : List Nat) (i : Nat) : patternCut cps (i + 1) =
    if kindAt patternKind cps i = some .space then
      if kindAt patternKind cps (i + 1) = some .space then
        (kindAt patternKind cps (i + 2)).isSome && decide (kindAt patternKind cps (i + 2) ≠ some .space)
      else decide (cps[i]? ≠ some 0x20)
    else decide (kindAt patternKind cps i ≠ kindAt patternKind cps (i + 1)) := by
  rw [patternCut, Nat.add_sub_cancel]

/-- After two characters of white space to the pattern. -/
theorem patternCut_white_white {cps : List Nat} {i : Nat} (h : kindAt patternKind cps i = some .space)
    (h' : kindAt patternKind cps (i + 1) = some .space) : patternCut cps (i + 1) = true ↔ WordAt cps (i + 2) := by
  rw [patternCut_succ, if_pos h, if_pos h', Bool.and_eq_true, decide_eq_true_eq]
  rfl

theorem VtabAt.kinds {cps : List Nat} {i : Nat} (h : VtabAt cps i) :
    kindAt codeKind cps i = some .other ∧ kindAt patternKind cps i = some .space := by
  unfold VtabAt at h
  rw [kindAt, kindAt, h]
  exact ⟨rfl, rfl⟩

theorem SpaceAt.pattern {cps : List Nat} (hascii : ∀ c ∈ cps, c < 0x80) {i : Nat} (h : SpaceAt cps i) (hi : i < cps.length) :
    kindAt patternKind cps i = some .space := by
  unfold SpaceAt at h
  cases charAt_of_ascii hascii hi with
  | space _ hpattern _ => exact hpattern
  | vtab _ hpattern _ => exact hpattern
  | word K hK hcode _ _ =>
    rw [h] at hcode
    exact absurd (Option.some.inj hcode).symm hK

theorem WordAt.code {cps : List Nat} (hascii : ∀ c ∈ cps, c < 0x80) {i : Nat} (h : WordAt cps i) (hi : i < cps.length) :
    kindAt codeKind cps i = kindAt patternKind cps i := by
  cases charAt_of_ascii hascii hi with
  | space _ hpattern _ => exact absurd hpattern h.2
  | vtab _ hpattern _ => exact absurd hpattern h.2
  | word K _ hcode hpattern _ => rw [hcode, hpattern]

theorem lt_of_kindAt (kind : Nat → Kind) {cps : List Nat} {i : Nat} (h : (kindAt kind cps i).isSome = true) : i < cps.length := by
  by_contra hge
  rw [kindAt, List.getElem?_eq_none (by omega)] at h
  exact Bool.false_ne_true h

/-- Where the cuts agree the white space is as it should be. -/
theorem spaced_of_cuts {cps : List Nat} (hascii : ∀ c ∈ cps, c < 0x80)
    (h : ∀ i, i + 1 < cps.length → codeCut cps (i + 1) = patternCut cps (i + 1)) : Spaced cps := by
  have hspace : ∀ i, SpaceAt cps i → i < cps.length ∧ kindAt codeKind cps i = some .space ∧
      kindAt patternKind cps i = some .space := by
    intro i hs
    have hlt : i < cps.length := lt_of_kindAt codeKind (by rw [hs]; rfl)
    exact ⟨hlt, hs, hs.pattern hascii hlt⟩
  have hvtab : ∀ i, VtabAt cps i → i < cps.length := fun i hv => (List.getElem?_eq_some_iff.mp hv).1
  have hrun : ∀ i, SpaceAt cps i → SpaceAt cps (i + 1) → ¬ WordAt cps (i + 2) := by
    intro i hs hs' hw
    obtain ⟨-, hc, hp⟩ := hspace i hs
    obtain ⟨hlt, hc', hp'⟩ := hspace (i + 1) hs'
    have hagree := h i hlt
    rw [(patternCut_white_white hp hp').mpr hw, codeCut_succ, if_pos hc, hc'] at hagree
    simp at hagree
  constructor
  case run => exact hrun
  case single =>
    intro i hs hw
    obtain ⟨-, hc, hp⟩ := hspace i hs
    have hlt := lt_of_kindAt patternKind hw.1
    by_contra hne
    have hagree := h i hlt
    rw [patternCut_succ, if_pos hp, if_neg hw.2, decide_eq_true hne, codeCut_succ, if_pos hc, Bool.and_eq_true, Bool.and_eq_true,
      decide_eq_true_eq, decide_eq_true_eq, decide_eq_true_eq] at hagree
    obtain ⟨-, hpos, hbefore⟩ := hagree
    refine hrun (i - 1) hbefore ?_ ?_
    · rwa [Nat.sub_add_cancel hpos]
    · rwa [show i - 1 + 2 = i + 1 by omega]
  case vtabSymbol =>
    intro i hv hs
    have hlt : i + 1 < cps.length := lt_of_kindAt patternKind (by rw [hs]; rfl)
    have hw : WordAt cps (i + 1) := by
      unfold WordAt
      rw [hs]
      exact ⟨rfl, by decide⟩
    have hagree := h i hlt
    rw [patternCut_succ, if_pos hv.kinds.2, if_neg hw.2, codeCut_succ, hv.kinds.1, hw.code hascii hlt, hs, hv] at hagree
    simp at hagree
  case symbolVtab =>
    intro i hs hv
    have hlt := hvtab (i + 1) hv
    have hw : WordAt cps i := by
      unfold WordAt
      rw [hs]
      exact ⟨rfl, by decide⟩
    have hagree := h i hlt
    rw [patternCut_succ, hs, hv.kinds.2, codeCut_succ, hw.code hascii (by omega), hs, hv.kinds.1] at hagree
    simp at hagree
  case vtabs =>
    intro i hv hv' hw
    have hagree := h i (hvtab (i + 1) hv')
    rw [(patternCut_white_white hv.kinds.2 hv'.kinds.2).mpr hw, codeCut_succ, hv.kinds.1, hv'.kinds.1] at hagree
    simp at hagree
  case vtabSpace =>
    intro i hv hs
    obtain ⟨hlt, hc, hp⟩ := hspace (i + 1) hs
    have hagree := h i hlt
    rw [codeCut_succ, hv.kinds.1, hc] at hagree
    exact (patternCut_white_white hv.kinds.2 hp).mp (by rw [← hagree]; rfl)
  case spaceVtab =>
    intro i hs hv
    obtain ⟨-, hc, hp⟩ := hspace i hs
    have hagree := h i (hvtab (i + 1) hv)
    rw [← patternCut_white_white hp hv.kinds.2, ← hagree, codeCut_succ, if_pos hc, hv.kinds.1]
    simp [SpaceAt]

/-- And where it is, they agree. -/
theorem cuts_of_spaced {cps : List Nat} (hascii : ∀ c ∈ cps, c < 0x80) (h : Spaced cps) {i : Nat} (hi : i + 1 < cps.length) :
    codeCut cps (i + 1) = patternCut cps (i + 1) := by
  have hword : ∀ {j : Nat} {K : Kind}, K ≠ .space → kindAt patternKind cps j = some K → WordAt cps j := by
    intro j K hK hp
    unfold WordAt
    rw [hp]
    exact ⟨rfl, fun he => hK (Option.some.inj he)⟩
  have hfalse : ∀ {b : Bool}, ¬ b = true → false = b := fun hb => (Bool.eq_false_iff.mpr hb).symm
  cases charAt_of_ascii hascii (show i < cps.length by omega) with
  | space hc hp _ =>
    rw [codeCut_succ, if_pos hc]
    cases charAt_of_ascii hascii hi with
    | space hc' hp' _ =>
      rw [hc']
      have hno := h.run i hc hc'
      rw [← patternCut_white_white hp hp'] at hno
      simpa using hfalse hno
    | vtab hc' hp' hv' =>
      rw [hc']
      have hiff := h.spaceVtab i hc hv'
      rw [← patternCut_white_white hp hp'] at hiff
      rw [Bool.eq_iff_iff, hiff]
      simp [SpaceAt]
    | word K hK hc' hp' _ =>
      have hw := hword hK hp'
      have hbefore : ¬ (0 < i ∧ kindAt codeKind cps (i - 1) = some .space) := by
        rintro ⟨hpos, hs⟩
        refine h.run (i - 1) hs ?_ ?_
        · rwa [Nat.sub_add_cancel hpos]
        · rwa [show i - 1 + 2 = i + 1 by omega]
      rw [patternCut_succ, if_pos hp, if_neg hw.2, h.single i hc hw]
      rw [not_and] at hbefore
      simpa using fun _ => hbefore
  | vtab hc hp hv =>
    rw [codeCut_succ, hc, if_neg (by decide)]
    cases charAt_of_ascii hascii hi with
    | space hc' hp' _ =>
      rw [hc', (patternCut_white_white hp hp').mpr (h.vtabSpace i hv hc')]
      rfl
    | vtab hc' hp' hv' =>
      rw [hc']
      have hno := h.vtabs i hv hv'
      rw [← patternCut_white_white hp hp'] at hno
      simpa using hfalse hno
    | word K hK hc' hp' _ =>
      have hno := h.vtabSymbol i hv
      rw [SymbolAt, hp'] at hno
      rw [patternCut_succ, if_pos hp, if_neg (hword hK hp').2, hv, hc', decide_eq_true (show some 0x0B ≠ some 0x20 by decide)]
      exact decide_eq_true (Ne.symm hno)
  | word K hK hc hp _ =>
    have hne : some K ≠ some Kind.space := fun he => hK (Option.some.inj he)
    rw [codeCut_succ, hc, if_neg hne, patternCut_succ, hp, if_neg hne]
    cases charAt_of_ascii hascii hi with
    | space hc' hp' _ => rw [hc', hp']
    | vtab hc' hp' hv' =>
      have hno : ¬ K = .other := fun he => h.symbolVtab i (by rw [SymbolAt, hp, he]) hv'
      rw [hc', hp', decide_eq_true hne]
      exact decide_eq_true fun he => hno (Option.some.inj he)
    | word K' _ hc' hp' _ => rw [hc', hp']

/-! ## The pieces and the matches -/

theorem codepoints_ascii {text : Bytes} (h : ∀ b ∈ text, b < 0x80) : codepoints text = text.map (·.toNat) := by
  have hfrom : ∀ (s : Bytes) (fuel : Nat), s.length ≤ fuel → (∀ b ∈ s, b < 0x80) →
      codepointsFrom fuel s = s.map (·.toNat) := by
    intro s
    induction s with
    | nil =>
      intro fuel _ _
      cases fuel <;> rfl
    | cons b s ih =>
      intro fuel hfuel hs
      cases fuel with
      | zero => exact absurd hfuel (by simp)
      | succ fuel =>
        have hb : b.toNat < 0x80 := hs b List.mem_cons_self
        rw [codepointsFrom, utf8Next, if_pos hb]
        dsimp only
        rw [ih fuel (by simpa using hfuel) fun b hb => hs b (List.mem_cons_of_mem _ hb), List.map_cons]
  exact hfrom text text.length (Nat.le_refl _) h

/-- Pieces of ASCII characters, as bytes. -/
theorem chop_bytes {text : Bytes} (h : ∀ b ∈ text, b < 0x80) (cut : Nat → Bool) :
    (chop cut 0 (text.map (·.toNat))).map utf8FromCps = chop cut 0 text := by
  have hpiece : ∀ piece : Bytes, (∀ b ∈ piece, b < 0x80) → utf8FromCps (piece.map (·.toNat)) = piece := by
    intro piece
    induction piece with
    | nil => exact fun _ => rfl
    | cons b piece ih =>
      intro hs
      have hb : b.toNat < 0x80 := hs b List.mem_cons_self
      have henc : utf8Encode b.toNat = [b] := by
        unfold utf8Encode
        rw [if_pos (by omega), UInt8.ofNat_toNat]
      have htail := ih fun b hb => hs b (List.mem_cons_of_mem _ hb)
      unfold utf8FromCps at htail ⊢
      rw [List.map_cons, List.flatMap_cons, henc, htail]
      rfl
  rw [← chop_map, List.map_map]
  conv_rhs => rw [← List.map_id (chop cut 0 text)]
  refine List.map_congr_left fun piece hp => hpiece piece fun b hb => h b ?_
  rw [← chop_flatten cut 0 text]
  exact List.mem_flatten.mpr ⟨piece, hp, hb⟩

/-- On ASCII text without apostrophes the pieces are the pattern's matches exactly when
    the white space is such that both take it alike. -/
theorem split_iff {text : Bytes} (hascii : ∀ b ∈ text, b < 0x80) (hquote : ∀ b ∈ text, b ≠ 0x27) :
    gpt2RegexSplit text = gpt2Matches text ↔ Spaced (text.map (·.toNat)) := by
  have hcps : ∀ c ∈ text.map (·.toNat), c < 0x80 := by
    intro c hc
    obtain ⟨b, hb, rfl⟩ := List.mem_map.mp hc
    exact hascii b hb
  have hnone : ∀ c ∈ text.map (·.toNat), c ≠ 0x27 := by
    intro c hc he
    obtain ⟨b, hb, rfl⟩ := List.mem_map.mp hc
    exact hquote b hb (UInt8.toNat_inj.mp he)
  unfold gpt2RegexSplit gpt2Matches
  rw [codepoints_ascii hascii, code_pieces hnone, pattern_pieces, chop_bytes hascii, chop_bytes hascii, chop_inj]
  apply Iff.intro
  · intro h
    exact spaced_of_cuts hcps fun i hi => h (i + 1) (Nat.succ_pos i) (by simpa using hi)
  · intro h k hpos hlt
    have hcut := cuts_of_spaced hcps h (i := k - 1) (by
      rw [List.length_map]
      omega)
    rwa [Nat.sub_add_cancel hpos] at hcut

/-! ## An indented word -/

/-- Two spaces and `b`: the pattern leaves the second space to the word. -/
theorem indented_differs : gpt2RegexSplit [0x20, 0x20, 0x62] = [[0x20, 0x20], [0x62]] ∧
    gpt2Matches [0x20, 0x20, 0x62] = [[0x20], [0x20, 0x62]] ∧
    gpt2RegexSplit [0x20, 0x20, 0x62] ≠ gpt2Matches [0x20, 0x20, 0x62] := by
  decide

/-- `a b`. -/
theorem one_space_iff : gpt2RegexSplit [0x61, 0x20, 0x62] = gpt2Matches [0x61, 0x20, 0x62] ↔
    Spaced ([0x61, 0x20, 0x62].map UInt8.toNat) :=
  split_iff (by simp) (by simp)

end Uaii.Tokenizers
