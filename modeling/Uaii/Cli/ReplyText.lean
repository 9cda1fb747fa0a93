/-
  Uaii.Cli.ReplyText — the reply of `run_text_generate`
  (`libs/uaii-cli/src/commands/generate.cpp`).

  The callback decodes each new token that is not a stop token by itself and streams its
  text; the reply is what was streamed or, if that is empty, the text of all new tokens, the
  stop token with them.

  Proved: the reply and the stream are the text of the tokens that are not stop tokens
  whenever these decode as one list as they do one by one and a stop token after nothing but
  empty text adds none, and only then, except where a piece of a BPE vocabulary ends inside a
  character (`reply_told`).

  As built, the words of an SPM reply run together (`words_run_together`), as each of them
  is stripped of its space.
-/

import Uaii.Cli.StopTokens
import Uaii.Tokenizers.DecodeJoins

namespace Uaii.Cli

open Uaii.Tokenizers

variable (tok : ITokenizer) (stopIds : List Int)

/-- The new tokens that are not stop tokens. -/
def keptTokens (newTokens : List Int) : List Int := newTokens.filter (· ∉ stopIds)

/-- What the callback writes for a token. -/
def tokenText (id : Int) : Bytes := if id ∈ stopIds then [] else tok.decode [id]

def streamedText (newTokens : List Int) : Bytes := newTokens.flatMap (tokenText tok stopIds)

def replyText (newTokens : List Int) : Bytes :=
  if streamedText tok stopIds newTokens = [] then tok.decode newTokens else streamedText tok stopIds newTokens

/-- The reply, and what was streamed, are the text of the tokens that are kept. -/
structure Told (newTokens : List Int) : Prop where
  reply : replyText tok stopIds newTokens = tok.decode (keptTokens stopIds newTokens)
  streamed : streamedText tok stopIds newTokens = tok.decode (keptTokens stopIds newTokens)

/-- The kept tokens decode together as they do alone; a stop token after nothing but empty text shows none. -/
structure PlainReply (newTokens : List Int) : Prop where
  joins : tok.Joins (keptTokens stopIds newTokens)
  stop : (∀ id ∈ keptTokens stopIds newTokens, tok.decode [id] = []) → ∀ t ∈ newTokens, t ∈ stopIds →
    ¬ tok.Shows t ∨ (∀ id ∈ keptTokens stopIds newTokens, ¬ tok.Shows id) ∧ tok.decode [t] = []

/-! ## What the loop leaves -/

variable {tok stopIds}

/-- Only the last new token can be a stop token. -/
theorem newTokens_kept : ∀ (n : Nat) (sampled : Nat → Int), let g := newTokens stopIds n sampled
    (keptTokens stopIds g = g ∧ ∀ t ∈ g, t ∉ stopIds) ∨ ∃ t ∈ stopIds, g = keptTokens stopIds g ++ [t]
  | 0, _ => .inl ⟨rfl, by simp [newTokens]⟩
  | n + 1, sampled => by
    by_cases hstop : sampled 0 ∈ stopIds
    · exact .inr ⟨sampled 0, hstop, by simp [newTokens, keptTokens, hstop]⟩
    · rcases newTokens_kept n fun k => sampled (k + 1) with ⟨hk, hno⟩ | ⟨t, ht, hg⟩
      · left
        simp only [newTokens, if_neg hstop]
        refine ⟨?_, fun t ht => (List.mem_cons.mp ht).elim (fun he => he ▸ hstop) (hno t)⟩
        rw [keptTokens, List.filter_cons_of_pos (by simpa using hstop)]
        exact congrArg _ hk
      · refine .inr ⟨t, ht, ?_⟩
        simp only [newTokens, if_neg hstop]
        rw [keptTokens, List.filter_cons_of_pos (by simpa using hstop), List.cons_append]
        exact congrArg _ hg

theorem streamedText_eq (g : List Int) : streamedText tok stopIds g = (keptTokens stopIds g).flatMap fun id => tok.decode [id] := by
  induction g with
  | nil => rfl
  | cons id g ih =>
    unfold streamedText keptTokens at ih ⊢
    rw [List.flatMap_cons, ih, tokenText]
    by_cases hstop : id ∈ stopIds
    · simp [hstop]
    · simp [hstop]

theorem told_iff (g : List Int) : Told tok stopIds g ↔
    streamedText tok stopIds g = tok.decode (keptTokens stopIds g) ∧ (streamedText tok stopIds g = [] → tok.decode g = []) := by
  constructor
  · intro h
    refine ⟨h.streamed, fun hnil => ?_⟩
    have hreply := h.reply
    rw [replyText, if_pos hnil, ← h.streamed, hnil] at hreply
    exact hreply
  · intro ⟨hs, hnil⟩
    refine ⟨?_, hs⟩
    unfold replyText
    split
    · next he => rw [hnil he, ← hs, he]
    · exact hs

/-- Where the kept tokens decode alike, what is left is the reply without a streamed text. -/
theorem told_iff_stop {n : Nat} {sampled : Nat → Int} (hs : streamedText tok stopIds (newTokens stopIds n sampled) =
      tok.decode (keptTokens stopIds (newTokens stopIds n sampled))) :
    Told tok stopIds (newTokens stopIds n sampled) ↔
      ((∀ id ∈ keptTokens stopIds (newTokens stopIds n sampled), tok.decode [id] = []) → ∀ t ∈ newTokens stopIds n sampled, t ∈ stopIds →
        ¬ tok.Shows t ∨ (∀ id ∈ keptTokens stopIds (newTokens stopIds n sampled), ¬ tok.Shows id) ∧ tok.decode [t] = []) := by
  rw [told_iff, and_iff_right hs]
  have hempty : streamedText tok stopIds (newTokens stopIds n sampled) = [] ↔
      ∀ id ∈ keptTokens stopIds (newTokens stopIds n sampled), tok.decode [id] = [] := by
    rw [streamedText_eq, List.flatMap_eq_nil_iff]
  rw [hempty]
  refine imp_congr_right fun hnil => ?_
  have hstreamed := hempty.mpr hnil
  rcases newTokens_kept n sampled with ⟨hk, hno⟩ | ⟨t, ht, hg⟩
  · refine iff_of_true ?_ fun t ht hstop => absurd hstop (hno t ht)
    rw [← hstreamed, hs, hk]
  · have hjoin := (streamedText_eq _).symm.trans hs
    have hlast := ITokenizer.decode_snoc_nil_iff (t := t) hjoin hnil
    rw [← hg] at hlast
    rw [hlast]
    constructor
    · intro h t' ht' hstop
      rw [hg] at ht'
      rcases List.mem_append.mp ht' with hin | hin
      · exact absurd hstop (by simpa using (List.mem_filter.mp hin).2)
      · rw [List.mem_singleton.mp hin]
        exact h
    · exact fun h => h t (by rw [hg]; simp) ht

/-- For every tokenizer, stop set and sampled tokens. -/
theorem reply_told (tok : ITokenizer) (stopIds : List Int) (maxNew : Nat) (sampled : Nat → Int) :
    (PlainReply tok stopIds (newTokens stopIds maxNew sampled) → Told tok stopIds (newTokens stopIds maxNew sampled)) ∧
    (tok.WholePieces → Told tok stopIds (newTokens stopIds maxNew sampled) → PlainReply tok stopIds (newTokens stopIds maxNew sampled)) := by
  constructor
  · intro h
    exact (told_iff_stop ((streamedText_eq _).trans (ITokenizer.joins_decode h.joins))).mpr h.stop
  · intro hw h
    exact ⟨ITokenizer.decode_joins hw ((streamedText_eq _).symm.trans h.streamed), (told_iff_stop h.streamed).mp h⟩

/-- `▁a` and `▁b`, after `<unk>`, `<s>` and `</s>`. -/
def wordTokenizer : SpmTokenizer := SpmTokenizer.ofTokens
  (SpmTokenizer.controlTokens ++ [[0xE2, 0x96, 0x81, 0x61], [0xE2, 0x96, 0x81, 0x62]])

/-- The reply to be `a b` is `ab`. -/
theorem words_run_together :
    let g := newTokens [2] 2 fun k => 3 + k
    replyText (.spm wordTokenizer) [2] g = [0x61, 0x62] ∧ (ITokenizer.spm wordTokenizer).decode (keptTokens [2] g) = [0x61, 0x20, 0x62] ∧
      ¬ Told (.spm wordTokenizer) [2] g := by
  have hreply : replyText (.spm wordTokenizer) [2] (newTokens [2] 2 fun k => 3 + k) = [0x61, 0x62] := by decide +kernel
  have htext : (ITokenizer.spm wordTokenizer).decode (keptTokens [2] (newTokens [2] 2 fun k => 3 + k)) = [0x61, 0x20, 0x62] := by
    decide +kernel
  refine ⟨hreply, htext, fun h => ?_⟩
  have htold := h.reply
  rw [hreply, htext] at htold
  exact absurd htold (by decide)

end Uaii.Cli
