/-
  Uaii.Cli.StopTokens — the stop tokens of `uaii generate` and `uaii chat`
  (`append_stop_strings` and `cmd_chat`, `libs/uaii-cli/src/commands/generate.cpp`).

  A stop string is encoded, and every id of the encoding becomes a stop token, those that
  begin and end a text among them. `cmd_chat` has two strings more, of which it takes an id
  only where the encoding is that id alone.

  Proved: a command stops early only at an explicit stop token or after a whole stop string,
  whatever is sampled, exactly when each id it took from a string is an explicit one or the
  whole of some stop string (`stops_at_strings_iff`).

  As built, `<end_of_turn>` of a `gemma` model makes `▁` a stop token, and an answer ends
  before its first word (`cut_at_a_space`).
-/

import Uaii.Runtime.GenerateLoop
import Uaii.Tokenizers.SimpleTokenizer

namespace Uaii.Cli

open Uaii.Tokenizers Uaii.Runtime Uaii.Kernels

/-! ## The tokens that stop -/

/-- The two commands; `--stop` is an option of the first. -/
inductive Command where
  | generate (stopTexts : List Bytes)
  | chat
  deriving DecidableEq, Repr

def appendStopStrings (tok : ITokenizer) : List Bytes → List Int → List Int
  | [], stopIds => stopIds
  | s :: stops, stopIds => appendStopStrings tok stops (if s = [] then stopIds else stopIds ++ tok.encode s)

/-- The loop over the ids of one string in `cmd_chat`. -/
def addMissing (stops : List Int) (ids : List Int) : List Int :=
  ids.foldl (fun stops id => if id ∈ stops then stops else stops ++ [id]) stops

/-- The strings that `cmd_chat` adds to the template's. -/
def moreStops : List Bytes := ["<|endoftext|>", "</s>"].map rawBytes

variable (tok : ITokenizer) (chatTemplate : Bytes) (explicit : List Int)

def stopIds : Command → List Int
  | .generate stopTexts => appendStopStrings tok (stopTexts ++ defaultChatStops chatTemplate) explicit
  | .chat =>
    let stops := (defaultChatStops chatTemplate).foldl (fun stops s => addMissing stops (tok.encode s)) explicit
    moreStops.foldl (fun stops s => if (tok.encode s).length = 1 then addMissing stops (tok.encode s) else stops) stops

/-- The strings that stop. -/
def stopStrings : Command → List Bytes
  | .generate stopTexts => stopTexts ++ defaultChatStops chatTemplate
  | .chat => defaultChatStops chatTemplate ++ moreStops

/-- The strings all of whose ids are taken. -/
def takenStrings : Command → List Bytes
  | .generate stopTexts => (stopTexts ++ defaultChatStops chatTemplate).filter (· ≠ [])
  | .chat => defaultChatStops chatTemplate

/-- The ends of the loop over the new tokens, for what it samples: `max_new_tokens` are out, or a stop token is. -/
def newTokens (stops : List Int) : Nat → (Nat → Int) → List Int
  | 0, _ => []
  | n + 1, sampled => sampled 0 :: if sampled 0 ∈ stops then [] else newTokens stops n fun k => sampled (k + 1)

/-- An early end is at an explicit stop token or after a whole stop string. -/
def StopsAt (strings : List Bytes) (stops : List Int) : Prop :=
  ∀ (maxNew : Nat) (sampled : Nat → Int), let g := newTokens stops maxNew sampled
    g.length < maxNew → (∃ id ∈ explicit, g.getLast? = some id) ∨ ∃ s ∈ strings, tok.content s <:+ g

/-- Each id taken from a string was asked for, or is the whole of some stop string. -/
def WholeTokens (c : Command) : Prop :=
  ∀ s ∈ takenStrings chatTemplate c, ∀ id ∈ tok.encode s,
    id ∈ explicit ∨ ∃ s' ∈ stopStrings chatTemplate c, tok.content s' <:+ [id]

/-! ## The loop -/

theorem newTokens_mem {stops : List Int} : ∀ {n : Nat} {sampled : Nat → Int}, (newTokens stops n sampled).length < n →
    ∃ id ∈ stops, (newTokens stops n sampled).getLast? = some id := by
  intro n
  induction n with
  | zero => exact fun h => absurd h (Nat.not_lt_zero _)
  | succ n ih =>
    intro sampled h
    by_cases hstop : sampled 0 ∈ stops
    · exact ⟨sampled 0, hstop, by simp [newTokens, hstop]⟩
    · simp only [newTokens, if_neg hstop, List.length_cons, Nat.add_lt_add_iff_right] at h
      obtain ⟨id, hid, hlast⟩ := ih h
      refine ⟨id, hid, ?_⟩
      rw [newTokens, if_neg hstop, List.getLast?_cons, hlast]
      rfl

section Loop

variable {K G : Type} [Field K] [LinearOrder K] {lib : SamplerLib K G} {env : GenerateEnv G}
  {buffers : Nat → TensorView K} {ops : List (KvOp K)} {limit : Option Int} {tokensId scoresId : Ir.TensorId} {call : GenerateCall K}

/-- The callback of `run_text_generate` never ends the loop. -/
def Listens (call : GenerateCall K) : Prop := ∀ f, call.onNewToken = some f → ∀ out, f out = true

/-- What the session's loop has put out when it ends well. -/
theorem decodeLoop_newTokens (hcall : Listens call) : ∀ {n : Nat} {rng : G} {st st' : GenState K},
    decodeLoop lib env buffers ops limit tokensId scoresId call n rng st = (.done, st') →
      ∃ sampled, st'.out = st.out ++ newTokens call.stopTokenIds n sampled := by
  intro n
  induction n with
  | zero =>
    intro rng st st' h
    cases h
    exact ⟨fun _ => 0, (List.append_nil _).symm⟩
  | succ n ih =>
    intro rng st st' h
    unfold decodeLoop at h
    cases hpause : env.paused st.out.length with
    | some e => simp [hpause] at h
    | none =>
      simp only [hpause] at h
      split at h
      · simp at h
      cases hsample : st.session.sampleToken lib buffers scoresId call.sample st.out rng with
      | error e => simp [hsample] at h
      | ok r =>
        obtain ⟨next, rng'⟩ := r
        have hlisten : (call.onNewToken.any fun f => !f (st.out ++ [next])) = false := by
          cases hf : call.onNewToken with
          | none => rfl
          | some f => simp [hcall f hf]
        simp only [hsample, hlisten, Bool.false_eq_true, if_false] at h
        by_cases hstop : next ∈ call.stopTokenIds
        · rw [if_pos hstop] at h
          cases h
          exact ⟨fun _ => next, by simp [newTokens, hstop]⟩
        rw [if_neg hstop] at h
        by_cases hn : n = 0
        · rw [if_pos hn] at h
          cases h
          exact ⟨fun _ => next, by simp [newTokens, hn]⟩
        rw [if_neg hn] at h
        split at h
        · simp at h
        · rcases hfeed : GenState.feed env buffers ops tokensId
            { st with out := st.out ++ [next] } next with ⟨_ | e, st₁⟩
          · rw [hfeed] at h
            obtain ⟨sampled, hout⟩ := ih h
            have hst₁ : st₁.out = st.out ++ [next] := by
              have hout := (feed_counts next (congrArg Prod.fst hfeed)).1
              rwa [hfeed] at hout
            refine ⟨fun k => k.casesOn next sampled, ?_⟩
            simp [newTokens, hstop, hout, hst₁]
          · rw [hfeed] at h
            simp at h

end Loop

/-! ## What is taken from the strings -/

theorem mem_appendStopStrings {id : Int} : ∀ {stops : List Bytes} {ids : List Int},
    id ∈ appendStopStrings tok stops ids ↔ id ∈ ids ∨ ∃ s ∈ stops.filter (· ≠ []), id ∈ tok.encode s := by
  intro stops
  induction stops with
  | nil => simp [appendStopStrings]
  | cons s stops ih =>
    intro ids
    rw [appendStopStrings, ih]
    by_cases hs : s = []
    · simp [hs]
    · simp [hs, or_assoc]

theorem mem_addMissing {id : Int} : ∀ {ids stops : List Int}, id ∈ addMissing stops ids ↔ id ∈ stops ∨ id ∈ ids := by
  intro ids
  induction ids with
  | nil => simp [addMissing]
  | cons i ids ih =>
    intro stops
    show id ∈ addMissing (if i ∈ stops then stops else stops ++ [i]) ids ↔ _
    rw [ih]
    by_cases hi : i ∈ stops
    · rw [if_pos hi, List.mem_cons]
      constructor
      · exact Or.imp_right .inr
      · rintro (h | rfl | h)
        · exact .inl h
        · exact .inl hi
        · exact .inr h
    · simp [hi, or_assoc]

/-- A loop over strings that adds the ids of those that `p` lets through. -/
theorem mem_addAll {id : Int} (p : Bytes → Prop) [DecidablePred p] : ∀ {strings : List Bytes} {stops : List Int},
    id ∈ strings.foldl (fun stops s => if p s then addMissing stops (tok.encode s) else stops) stops ↔
      id ∈ stops ∨ ∃ s ∈ strings, p s ∧ id ∈ tok.encode s := by
  intro strings
  induction strings with
  | nil => simp
  | cons s strings ih =>
    intro stops
    rw [List.foldl_cons, ih]
    by_cases hp : p s
    · simp [hp, mem_addMissing, or_assoc]
    · simp [hp]

theorem mem_stopIds {id : Int} (c : Command) : id ∈ stopIds tok chatTemplate explicit c ↔
    id ∈ explicit ∨ (∃ s ∈ takenStrings chatTemplate c, id ∈ tok.encode s) ∨
      c = .chat ∧ ∃ s ∈ moreStops, (tok.encode s).length = 1 ∧ id ∈ tok.encode s := by
  cases c with
  | generate stopTexts => simp [stopIds, takenStrings, mem_appendStopStrings]
  | chat =>
    have hdefault : id ∈ (defaultChatStops chatTemplate).foldl (fun stops s => addMissing stops (tok.encode s)) explicit ↔
        id ∈ explicit ∨ ∃ s ∈ defaultChatStops chatTemplate, id ∈ tok.encode s := by
      simpa using mem_addAll tok (fun _ => True)
    simp only [stopIds, takenStrings, mem_addAll tok (fun s => (tok.encode s).length = 1), hdefault, or_assoc, true_and]

/-- A string that is one token is that token, or nothing but a beginning or an end. -/
theorem content_of_single {s : Bytes} {id : Int} (h : tok.encode s = [id]) : tok.content s <:+ [id] := by
  have hlen := congrArg List.length h
  rw [tok.encode_eq] at h hlen
  simp only [List.length_append, List.length_singleton] at hlen
  by_cases hnil : tok.content s = []
  · rw [hnil]
    exact List.nil_suffix
  · have hpos := List.length_pos_of_ne_nil hnil
    have ho := List.length_eq_zero_iff.mp (show tok.opening.length = 0 by omega)
    have hc := List.length_eq_zero_iff.mp (show tok.closing.length = 0 by omega)
    rw [ho, hc, List.nil_append, List.append_nil] at h
    rw [h]

/-- Whatever is sampled, a command stops early only where it was asked to, exactly when what it took are whole strings. -/
theorem stops_at_strings_iff (c : Command) :
    StopsAt tok explicit (stopStrings chatTemplate c) (stopIds tok chatTemplate explicit c) ↔ WholeTokens tok chatTemplate explicit c := by
  constructor
  · intro h s hs id hid
    have hstop := (mem_stopIds tok chatTemplate explicit c).mpr (.inr (.inl ⟨s, hs, hid⟩))
    have hone : newTokens (stopIds tok chatTemplate explicit c) 2 (fun _ => id) = [id] := by simp [newTokens, hstop]
    have hearly := h 2 fun _ => id
    rw [hone] at hearly
    rcases hearly (by simp) with ⟨i, hi, he⟩ | hwhole
    · cases he
      exact .inl hi
    · exact .inr hwhole
  · intro h maxNew sampled g hearly
    obtain ⟨id, hid, hlast⟩ := newTokens_mem hearly
    have hend : [id] <:+ g := by
      obtain ⟨pre, hpre⟩ := List.getLast?_eq_some_iff.mp hlast
      exact ⟨pre, hpre.symm⟩
    rcases (mem_stopIds tok chatTemplate explicit c).mp hid with hex | ⟨s, hs, hmem⟩ | ⟨rfl, s, hs, hlen, hmem⟩
    · exact .inl ⟨id, hex, hlast⟩
    · rcases h s hs id hmem with hex | ⟨s', hs', hwhole⟩
      · exact .inl ⟨id, hex, hlast⟩
      · exact .inr ⟨s', hs', hwhole.trans hend⟩
    · obtain ⟨i, hi⟩ := List.length_eq_one_iff.mp hlen
      rw [hi, List.mem_singleton] at hmem
      subst hmem
      exact .inr ⟨s, List.mem_append_right _ hs, (content_of_single tok hi).trans hend⟩

/-- So it is in the session's loop. -/
theorem session_stops_at_strings {K G : Type} [Field K] [LinearOrder K] {lib : SamplerLib K G} {env : GenerateEnv G}
    {buffers : Nat → TensorView K} {ops : List (KvOp K)} {limit : Option Int} {tokensId scoresId : Ir.TensorId} {call : GenerateCall K}
    {c : Command} (hcall : Listens call) (hstops : call.stopTokenIds = stopIds tok chatTemplate explicit c)
    (hwhole : WholeTokens tok chatTemplate explicit c) {n : Nat} {rng : G} {st st' : GenState K}
    (h : decodeLoop lib env buffers ops limit tokensId scoresId call n rng st = (.done, st')) :
    ∃ g, st'.out = st.out ++ g ∧ (g.length < n →
      (∃ id ∈ explicit, g.getLast? = some id) ∨ ∃ s ∈ stopStrings chatTemplate c, tok.content s <:+ g) := by
  obtain ⟨sampled, hout⟩ := decodeLoop_newTokens hcall h
  rw [hstops] at hout
  exact ⟨_, hout, (stops_at_strings_iff tok chatTemplate explicit c).mpr hwhole n sampled⟩

/-- What every text begins or ends with has to be asked for, or to be a stop string. -/
theorem WholeTokens.ends {c : Command} (h : WholeTokens tok chatTemplate explicit c) {id : Int}
    (hid : id ∈ tok.opening ∨ id ∈ tok.closing) : id ∈ explicit ∨ ∃ s ∈ stopStrings chatTemplate c, tok.content s <:+ [id] := by
  obtain ⟨s, hs⟩ : ∃ s, s ∈ takenStrings chatTemplate c := by
    have hsome : ∃ s ∈ defaultChatStops chatTemplate, s ≠ [] := by
      unfold defaultChatStops
      split <;> exact ⟨_, List.mem_cons_self, by decide⟩
    obtain ⟨s, hs, hne⟩ := hsome
    refine ⟨s, ?_⟩
    cases c with
    | generate stopTexts => exact List.mem_filter.mpr ⟨List.mem_append_right _ hs, by simpa using hne⟩
    | chat => exact hs
  refine h s hs id ?_
  rw [tok.encode_eq]
  simp only [List.mem_append]
  exact hid.elim (.inl ∘ .inl) .inr

/-- `▁`, `<end_of_turn>` and a word, after `<unk>`, `<s>` and `</s>`; no BOS is added. -/
def gemmaTokenizer : SpmTokenizer :=
  { SpmTokenizer.ofTokens (SpmTokenizer.controlTokens ++ [spmSpace, rawBytes "<end_of_turn>", [0x68, 0x69]]) with addBos := false }

/-- A `gemma` chat that samples `▁` ends there, though the turn's end is `▁` and `<end_of_turn>`. -/
theorem cut_at_a_space :
    newTokens (stopIds (.spm gemmaTokenizer) (rawBytes "gemma") [] .chat) 64 (fun _ => 3) = [3] ∧
    ¬ StopsAt (.spm gemmaTokenizer) [] (stopStrings (rawBytes "gemma") .chat) (stopIds (.spm gemmaTokenizer) (rawBytes "gemma") [] .chat) := by
  have hstop : (3 : Int) ∈ stopIds (.spm gemmaTokenizer) (rawBytes "gemma") [] .chat := by decide +kernel
  have hcut : newTokens (stopIds (.spm gemmaTokenizer) (rawBytes "gemma") [] .chat) 64 (fun _ => 3) = [3] := by
    rw [newTokens, if_pos hstop]
  refine ⟨hcut, fun h => ?_⟩
  have hearly := h 64 fun _ => 3
  rw [hcut] at hearly
  have hno : ∀ s ∈ stopStrings (rawBytes "gemma") .chat, ¬ (ITokenizer.spm gemmaTokenizer).content s <:+ [3] := by decide +kernel
  rcases hearly (by simp) with ⟨id, hid, -⟩ | ⟨s, hs, hend⟩
  · cases hid
  · exact hno s hs hend

end Uaii.Cli
