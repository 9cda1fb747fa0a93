/-
  Uaii.Tokenizers.ChatTemplate — `format_chat_messages` and `default_chat_stops`
  (`libs/uaii-tokenizers/src/chat_template.cpp`).

  The text is kept as the list of what is appended to it, so that it shows which of it
  is template, which the system text and which a message of a user or an assistant.

  Proved: the system contents, joined, and the contents of the other messages in their
  order each come once into the text, exactly when there is no system text, or the
  template family has a place for it (`keeps_all_iff`).

  As built, `mistral` writes the system text before the first turn and `gemma` into the
  first user turn. Without such a turn it is lost; `gemma` alone makes up for it, and
  only where there is no turn at all.
-/

import Uaii.Tokenizers.HfTokenizer

namespace Uaii.Tokenizers

structure ChatMessage where
  role : Bytes
  content : Bytes
  deriving DecidableEq, Repr

def lowerAscii (s : Bytes) : Bytes := s.map fun c => if 0x41 ≤ c ∧ c ≤ 0x5A then c + 0x20 else c

def contains (hay needle : Bytes) : Bool := decide (needle <:+: hay)

inductive Family where
  | llama3
  | gemma
  | mistral
  | chatml
  /-- A name that is none of these; it is treated as `chatml`. -/
  | other (name : Bytes)
  deriving DecidableEq, Repr

def familyOf (chatTemplate : Bytes) : Family :=
  let t := lowerAscii chatTemplate
  if (["llama3", "llama-3", "llama4"].map rawBytes).contains t then .llama3
  else if (["gemma", "gemma2", "gemma3"].map rawBytes).contains t then .gemma
  else if (["mistral", "mixtral", "llama2"].map rawBytes).contains t then .mistral
  else if (["chatml", "qwen", "qwen2", "qwen3"].map rawBytes).contains t then .chatml
  else if contains chatTemplate (rawBytes "<|start_header_id|>") then .llama3
  else if contains chatTemplate (rawBytes "<start_of_turn>") then .gemma
  else if contains chatTemplate (rawBytes "[INST]") then .mistral
  else if contains chatTemplate (rawBytes "<|im_start|>") then .chatml
  else if t = [] then .chatml
  else .other t

def looksPreformatted (text : Bytes) : Bool :=
  contains text (rawBytes "<|im_start|>") || contains text (rawBytes "<|start_header_id|>") ||
    contains text (rawBytes "<start_of_turn>") || contains text (rawBytes "[INST]")

/-- One `out += s`. -/
inductive Piece where
  | text (s : Bytes)
  | system (s : Bytes)
  | turn (s : Bytes)
  deriving DecidableEq, Repr

namespace Piece

def bytes : Piece → Bytes
  | .text s => s
  | .system s => s
  | .turn s => s

def lit (s : String) : Piece := .text (rawBytes s)

def system? : Piece → Option Bytes
  | .system s => some s
  | _ => none

def turn? : Piece → Option Bytes
  | .turn s => some s
  | _ => none

end Piece

open Piece (lit)

def joined (ps : List Piece) : Bytes := ps.flatMap Piece.bytes

def systems (ps : List Piece) : List Bytes := ps.filterMap Piece.system?

def spoken (ps : List Piece) : List Bytes := ps.filterMap Piece.turn?

/-- A message that is not the system's. -/
structure Turn where
  assistant : Bool
  content : Bytes
  deriving DecidableEq, Repr

namespace ChatMessage

def isSystem (m : ChatMessage) : Bool := lowerAscii m.role == rawBytes "system"

def toTurn (m : ChatMessage) : Turn :=
  ⟨lowerAscii m.role == rawBytes "assistant" || lowerAscii m.role == rawBytes "model", m.content⟩

end ChatMessage

/-- The first loop. -/
def readMessages : List ChatMessage → Bytes × List Turn → Bytes × List Turn
  | [], r => r
  | m :: ms, (system, turns) =>
    if m.isSystem then readMessages ms (if system = [] then m.content else system ++ (rawBytes "\n" ++ m.content), turns)
    else readMessages ms (system, turns ++ [m.toTurn])

def tag (m : Turn) : Piece := if m.assistant then lit "assistant" else lit "user"

def llama3Pieces (system : Bytes) (turns : List Turn) : List Piece :=
  [lit "<|begin_of_text|>"] ++
  (if system = [] then [] else [lit "<|start_header_id|>system<|end_header_id|>\n\n", .system system, lit "<|eot_id|>"]) ++
  turns.flatMap (fun m => [lit "<|start_header_id|>", tag m, lit "<|end_header_id|>\n\n", .turn m.content, lit "<|eot_id|>"]) ++
  [lit "<|start_header_id|>assistant<|end_header_id|>\n\n"]

/-- `first_user` and the loop. -/
def gemmaTurns (system : Bytes) : Bool → List Turn → List Piece
  | _, [] => []
  | firstUser, m :: turns =>
    if m.assistant then
      [lit "<start_of_turn>model\n", .turn m.content, lit "<end_of_turn>\n"] ++ gemmaTurns system firstUser turns
    else
      [lit "<start_of_turn>user\n"] ++ (if firstUser ∧ system ≠ [] then [.system system, lit "\n\n"] else []) ++
      [.turn m.content, lit "<end_of_turn>\n"] ++ gemmaTurns system false turns

def gemmaPieces (system : Bytes) (turns : List Turn) : List Piece :=
  gemmaTurns system true turns ++
  (if turns = [] ∧ system ≠ [] then [lit "<start_of_turn>user\n", .system system, lit "<end_of_turn>\n"] else []) ++
  [lit "<start_of_turn>model\n"]

/-- `pending`, `opened` and the loop. -/
def mistralTurns : List Piece → Bool → List Turn → List Piece
  | _, _, [] => []
  | pending, opened, m :: turns =>
    if !m.assistant then
      [lit "[INST] "] ++ (pending ++ [.turn m.content]) ++ [lit " [/INST]"] ++ mistralTurns [] true turns
    else
      let (before, pending) :=
        if opened then ([], pending)
        else ([lit "[INST] "] ++ (if joined pending = [] then [] else pending) ++ [lit " [/INST]"], [])
      before ++ [lit " ", .turn m.content, lit "</s>"] ++ mistralTurns pending false turns

def mistralPieces (system : Bytes) (turns : List Turn) : List Piece :=
  [lit "<s>"] ++ mistralTurns (if system = [] then [] else [.system system, lit "\n\n"]) false turns

def chatmlPieces (system : Bytes) (turns : List Turn) : List Piece :=
  (if system = [] then [] else [lit "<|im_start|>system\n", .system system, lit "<|im_end|>\n"]) ++
  turns.flatMap (fun m => [lit "<|im_start|>", tag m, lit "\n", .turn m.content, lit "<|im_end|>\n"]) ++
  [lit "<|im_start|>assistant\n"]

/-- What `format_chat_messages` appends. -/
def chatPieces (chatTemplate : Bytes) (messages : List ChatMessage) : List Piece :=
  let (system, turns) := readMessages messages ([], [])
  match familyOf chatTemplate with
  | .llama3 => llama3Pieces system turns
  | .gemma => gemmaPieces system turns
  | .mistral => mistralPieces system turns
  | .chatml => chatmlPieces system turns
  | .other _ => chatmlPieces system turns

/-- A single message that was formatted already. -/
def preformatted : List ChatMessage → Bool
  | [m] => looksPreformatted m.content
  | _ => false

def formatChatMessages (chatTemplate : Bytes) (messages : List ChatMessage) : Bytes :=
  if preformatted messages then messages.flatMap (·.content) else joined (chatPieces chatTemplate messages)

def formatChatPrompt (chatTemplate system user : Bytes) : Bytes :=
  if looksPreformatted user then user
  else formatChatMessages chatTemplate ((if system = [] then [] else [⟨rawBytes "system", system⟩]) ++ [⟨rawBytes "user", user⟩])

def defaultChatStops (chatTemplate : Bytes) : List Bytes :=
  match familyOf chatTemplate with
  | .llama3 => ["<|eot_id|>", "<|end_of_text|>"].map rawBytes
  | .gemma => ["<end_of_turn>"].map rawBytes
  | .mistral => ["</s>"].map rawBytes
  | _ => ["<|im_end|>", "<|endoftext|>", "</s>"].map rawBytes

/-! ## What the messages say -/

/-- The system contents, joined; empty ones before the first that is not are dropped. -/
def systemText (ms : List ChatMessage) : Bytes :=
  (rawBytes "\n").intercalate (((ms.filter (·.isSystem)).map (·.content)).dropWhile (· = []))

def turnsOf (ms : List ChatMessage) : List Turn := (ms.filter (!·.isSystem)).map (·.toTurn)

/-- The pieces show the system text once, where there is one, and the contents of the other messages once in their order. -/
structure Carries (ms : List ChatMessage) (ps : List Piece) : Prop where
  system : systems ps = if systemText ms = [] then [] else [systemText ms]
  turns : spoken ps = (ms.filter (!·.isSystem)).map (·.content)

/-- The text carries every message, and so contains its content. -/
def KeepsAll (chatTemplate : Bytes) (ms : List ChatMessage) : Prop :=
  Carries ms (chatPieces chatTemplate ms) ∧ ∀ m ∈ ms, m.content <:+: formatChatMessages chatTemplate ms

/-- A system text that has no place: `mistral` without a turn, `gemma` with turns of the assistant only. -/
def Homeless (chatTemplate : Bytes) (ms : List ChatMessage) : Prop :=
  systemText ms ≠ [] ∧ (familyOf chatTemplate = .mistral ∧ turnsOf ms = [] ∨
    familyOf chatTemplate = .gemma ∧ turnsOf ms ≠ [] ∧ ∀ m ∈ turnsOf ms, m.assistant = true)

/-! ## Joining -/

section Joining

variable {α : Type} {sep x : List α} {xs : List (List α)}

theorem infix_intercalate (hx : x ∈ xs) : x <:+: sep.intercalate xs := by
  induction xs with
  | nil => cases hx
  | cons y xs ih =>
    cases xs with
    | nil =>
      obtain rfl := List.mem_singleton.mp hx
      simp
    | cons z xs =>
      rw [List.intercalate_cons_cons]
      rcases List.mem_cons.mp hx with rfl | hx
      · rw [List.append_assoc]
        exact (List.prefix_append x _).isInfix
      · exact (ih hx).trans (List.suffix_append _ _).isInfix

theorem mem_dropWhile_of_not {β : Type} {p : β → Bool} {a : β} {l : List β} (ha : a ∈ l) (hp : p a = false) : a ∈ l.dropWhile p := by
  induction l with
  | nil => cases ha
  | cons b l ih =>
    rw [List.dropWhile_cons]
    split
    · next hb =>
      rcases List.mem_cons.mp ha with rfl | ha
      · rw [hb] at hp
        cases hp
      · exact ih ha
    · exact ha

theorem infix_joined {ps : List Piece} {p : Piece} (hp : p ∈ ps) : p.bytes <:+: joined ps := by
  obtain ⟨pre, post, rfl⟩ := List.append_of_mem hp
  exact ⟨joined pre, joined post, by simp [joined]⟩

end Joining

/-! ## The first loop -/

theorem readMessages_turns (ms : List ChatMessage) : ∀ (system : Bytes) (turns : List Turn),
    (readMessages ms (system, turns)).2 = turns ++ turnsOf ms := by
  induction ms with
  | nil => intro system turns; simp [readMessages, turnsOf]
  | cons m ms ih =>
    intro system turns
    unfold readMessages
    split
    · next hsys => rw [ih]; simp [turnsOf, hsys]
    · next hsys => rw [ih]; simp [turnsOf, hsys]

/-- What was read of a system text so far, and what is read then. -/
theorem readMessages_system (ms : List ChatMessage) : ∀ (system : Bytes) (turns : List Turn),
    (readMessages ms (system, turns)).1 =
      if system = [] then systemText ms
      else (rawBytes "\n").intercalate (system :: (ms.filter (·.isSystem)).map (·.content)) := by
  induction ms with
  | nil =>
    intro system turns
    by_cases hs : system = [] <;> simp [readMessages, systemText, hs]
  | cons m ms ih =>
    intro system turns
    unfold readMessages
    split
    · next hsys =>
      rw [ih]
      by_cases hs : system = []
      · by_cases hc : m.content = []
        · simp [systemText, hsys, hs, hc]
        · simp [systemText, hsys, hs, hc]
      · have hne : system ++ (rawBytes "\n" ++ m.content) ≠ [] := by simp [hs]
        simp only [if_neg hs, if_neg hne, List.filter_cons, hsys, if_true, List.map_cons, List.intercalate_cons_cons]
        cases (ms.filter (·.isSystem)).map (·.content) with
        | nil => simp
        | cons c cs => simp [List.intercalate_cons_cons]
    · next hsys =>
      rw [ih]
      simp [systemText, hsys]

/-! ## The families -/

section Families

@[simp] theorem systems_append (ps qs : List Piece) : systems (ps ++ qs) = systems ps ++ systems qs := List.filterMap_append
@[simp] theorem spoken_append (ps qs : List Piece) : spoken (ps ++ qs) = spoken ps ++ spoken qs := List.filterMap_append
@[simp] theorem systems_nil : systems [] = [] := rfl
@[simp] theorem spoken_nil : spoken [] = [] := rfl
@[simp] theorem systems_lit (s : String) (ps : List Piece) : systems (lit s :: ps) = systems ps := rfl
@[simp] theorem spoken_lit (s : String) (ps : List Piece) : spoken (lit s :: ps) = spoken ps := rfl
@[simp] theorem systems_system (s : Bytes) (ps : List Piece) : systems (.system s :: ps) = s :: systems ps := rfl
@[simp] theorem spoken_system (s : Bytes) (ps : List Piece) : spoken (.system s :: ps) = spoken ps := rfl
@[simp] theorem systems_turn (s : Bytes) (ps : List Piece) : systems (.turn s :: ps) = systems ps := rfl
@[simp] theorem spoken_turn (s : Bytes) (ps : List Piece) : spoken (.turn s :: ps) = s :: spoken ps := rfl

@[simp] theorem systems_tag (m : Turn) (ps : List Piece) : systems (tag m :: ps) = systems ps := by
  unfold tag
  split <;> rfl

@[simp] theorem spoken_tag (m : Turn) (ps : List Piece) : spoken (tag m :: ps) = spoken ps := by
  unfold tag
  split <;> rfl

/-- A loop that appends the same pieces for each turn. -/
theorem each_turn {f : Turn → List Piece} (hsys : ∀ m, systems (f m) = []) (hturn : ∀ m, spoken (f m) = [m.content]) :
    ∀ turns : List Turn, systems (turns.flatMap f) = [] ∧ spoken (turns.flatMap f) = turns.map (·.content)
  | [] => ⟨rfl, rfl⟩
  | m :: turns => by
    obtain ⟨ih₁, ih₂⟩ := each_turn hsys hturn turns
    simp [hsys, hturn, ih₁, ih₂]

variable (system : Bytes) (turns : List Turn)

/-- The system text, where there is one. -/
def once : List Bytes := if system = [] then [] else [system]

theorem llama3_pieces : systems (llama3Pieces system turns) = once system ∧
    spoken (llama3Pieces system turns) = turns.map (·.content) := by
  obtain ⟨hsys, hturn⟩ := each_turn (f := fun m => [lit "<|start_header_id|>", tag m, lit "<|end_header_id|>\n\n",
    .turn m.content, lit "<|eot_id|>"]) (by simp) (by simp) turns
  unfold llama3Pieces once
  split <;> simp [hsys, hturn]

theorem chatml_pieces : systems (chatmlPieces system turns) = once system ∧
    spoken (chatmlPieces system turns) = turns.map (·.content) := by
  obtain ⟨hsys, hturn⟩ := each_turn (f := fun m => [lit "<|im_start|>", tag m, lit "\n", .turn m.content, lit "<|im_end|>\n"])
    (by simp) (by simp) turns
  unfold chatmlPieces once
  split <;> simp [hsys, hturn]

theorem gemmaTurns_pieces : ∀ (firstUser : Bool) (turns : List Turn),
    systems (gemmaTurns system firstUser turns) =
      (if firstUser = true ∧ ∃ m ∈ turns, m.assistant = false then once system else []) ∧
    spoken (gemmaTurns system firstUser turns) = turns.map (·.content)
  | _, [] => by simp [gemmaTurns]
  | firstUser, m :: turns => by
    unfold gemmaTurns
    split
    · next hm =>
      obtain ⟨hsys, hturn⟩ := gemmaTurns_pieces firstUser turns
      simp [hsys, hturn, hm]
    · next hm =>
      obtain ⟨hsys, hturn⟩ := gemmaTurns_pieces false turns
      by_cases hs : system = []
      · subst hs
        cases firstUser <;> simp [hsys, hturn, hm, once]
      · cases firstUser <;> simp [hsys, hturn, hm, once, hs]

theorem gemma_pieces : systems (gemmaPieces system turns) =
      (if turns ≠ [] ∧ ∀ m ∈ turns, m.assistant = true then [] else once system) ∧
    spoken (gemmaPieces system turns) = turns.map (·.content) := by
  obtain ⟨hsys, hturn⟩ := gemmaTurns_pieces system true turns
  unfold gemmaPieces
  by_cases ht : turns = []
  · subst ht
    by_cases hs : system = [] <;> simp [gemmaTurns, once, hs]
  · by_cases hall : ∀ m ∈ turns, m.assistant = true
    · have hno : ¬ ∃ m ∈ turns, m.assistant = false := by
        intro hex
        obtain ⟨m, hm, hf⟩ := hex
        rw [hall m hm] at hf
        cases hf
      have hlost : (if turns ≠ [] ∧ ∀ m ∈ turns, m.assistant = true then [] else once system) = [] := if_pos ⟨ht, hall⟩
      rw [hlost]
      simp [hsys, hturn, ht, hno]
    · have hex : ∃ m ∈ turns, m.assistant = false := by simpa using hall
      have hkept : (if turns ≠ [] ∧ ∀ m ∈ turns, m.assistant = true then [] else once system) = once system :=
        if_neg fun hno => hall hno.2
      rw [hkept]
      simp [hsys, hturn, ht, hex]

theorem mistralTurns_pieces : ∀ (turns : List Turn) (pending : List Piece) (opened : Bool), spoken pending = [] →
    (joined pending = [] → pending = []) → (opened = true → pending = []) →
    systems (mistralTurns pending opened turns) = (if turns = [] then [] else systems pending) ∧
    spoken (mistralTurns pending opened turns) = turns.map (·.content)
  | [], _, _, _, _, _ => by simp [mistralTurns]
  | m :: turns, pending, opened, hturn, hjoined, hopened => by
    obtain ⟨hsys₀, hturn₀⟩ := mistralTurns_pieces turns [] true rfl (fun _ => rfl) fun _ => rfl
    obtain ⟨hsys₁, hturn₁⟩ := mistralTurns_pieces turns [] false rfl (fun _ => rfl) fun _ => rfl
    unfold mistralTurns
    split
    · simp [hsys₀, hturn₀, hturn]
    · cases opened with
      | true =>
        obtain rfl := hopened rfl
        simp [hsys₁, hturn₁]
      | false =>
        by_cases hp : joined pending = []
        · obtain rfl := hjoined hp
          simp [hsys₁, hturn₁, joined]
        · simp [hsys₁, hturn₁, hturn, hp]

theorem mistral_pieces : systems (mistralPieces system turns) = (if turns = [] then [] else once system) ∧
    spoken (mistralPieces system turns) = turns.map (·.content) := by
  unfold mistralPieces once
  by_cases hs : system = []
  · obtain ⟨hsys, hturn⟩ := mistralTurns_pieces turns [] false rfl (fun _ => rfl) (fun _ => rfl)
    simp [hs, hsys, hturn]
  · obtain ⟨hsys, hturn⟩ := mistralTurns_pieces turns [.system system, lit "\n\n"] false rfl
      (by simp [joined, Piece.bytes, hs]) (by simp)
    simp [hs, hsys, hturn]

end Families

/-! ## Nothing lost -/

theorem systemText_infix {ms : List ChatMessage} {m : ChatMessage} (hm : m ∈ ms) (hsys : m.isSystem = true) :
    m.content <:+: systemText ms := by
  by_cases hc : m.content = []
  · rw [hc]
    exact List.nil_infix
  · refine infix_intercalate (mem_dropWhile_of_not ?_ (by simpa using hc))
    exact List.mem_map_of_mem (List.mem_filter.mpr ⟨hm, hsys⟩)

theorem Carries.infix {ms : List ChatMessage} {ps : List Piece} (h : Carries ms ps) {m : ChatMessage} (hm : m ∈ ms) :
    m.content <:+: joined ps := by
  cases hsys : m.isSystem with
  | true =>
    have hinfix := systemText_infix hm hsys
    by_cases hs : systemText ms = []
    · rw [hs] at hinfix
      rw [List.infix_nil.mp hinfix]
      exact List.nil_infix
    · have hmem : systemText ms ∈ systems ps := by
        rw [h.system, if_neg hs]
        exact List.mem_singleton_self _
      obtain ⟨p, hp, hps⟩ := List.mem_filterMap.mp hmem
      cases p with
      | system s =>
        obtain rfl := Option.some.inj hps
        exact hinfix.trans (infix_joined hp)
      | text s => cases hps
      | turn s => cases hps
  | false =>
    have hmem : m.content ∈ spoken ps := by
      rw [h.turns]
      exact List.mem_map_of_mem (List.mem_filter.mpr ⟨hm, by simp [hsys]⟩)
    obtain ⟨p, hp, hps⟩ := List.mem_filterMap.mp hmem
    cases p with
    | turn s =>
      obtain rfl := Option.some.inj hps
      exact infix_joined hp
    | text s => cases hps
    | system s => cases hps

theorem chatPieces_read (chatTemplate : Bytes) (ms : List ChatMessage) : chatPieces chatTemplate ms =
    match familyOf chatTemplate with
    | .llama3 => llama3Pieces (systemText ms) (turnsOf ms)
    | .gemma => gemmaPieces (systemText ms) (turnsOf ms)
    | .mistral => mistralPieces (systemText ms) (turnsOf ms)
    | .chatml => chatmlPieces (systemText ms) (turnsOf ms)
    | .other _ => chatmlPieces (systemText ms) (turnsOf ms) := by
  have hsys := readMessages_system ms [] []
  have hturns := readMessages_turns ms [] []
  rw [if_pos rfl] at hsys
  rw [List.nil_append] at hturns
  simp only [chatPieces, hsys, hturns]

theorem turnsOf_content (ms : List ChatMessage) : (turnsOf ms).map (·.content) = (ms.filter (!·.isSystem)).map (·.content) := by
  simp [turnsOf, ChatMessage.toTurn]

theorem carries_iff (chatTemplate : Bytes) (ms : List ChatMessage) :
    Carries ms (chatPieces chatTemplate ms) ↔ ¬ Homeless chatTemplate ms := by
  have hcontent := turnsOf_content ms
  have honce : once (systemText ms) = if systemText ms = [] then [] else [systemText ms] := rfl
  rw [chatPieces_read]
  unfold Homeless
  cases hfam : familyOf chatTemplate with
  | llama3 =>
    obtain ⟨hsys, hturn⟩ := llama3_pieces (systemText ms) (turnsOf ms)
    exact iff_of_true ⟨hsys, hturn.trans hcontent⟩ (by simp)
  | chatml =>
    obtain ⟨hsys, hturn⟩ := chatml_pieces (systemText ms) (turnsOf ms)
    exact iff_of_true ⟨hsys, hturn.trans hcontent⟩ (by simp)
  | other name =>
    obtain ⟨hsys, hturn⟩ := chatml_pieces (systemText ms) (turnsOf ms)
    exact iff_of_true ⟨hsys, hturn.trans hcontent⟩ (by simp)
  | gemma =>
    obtain ⟨hsys, hturn⟩ := gemma_pieces (systemText ms) (turnsOf ms)
    simp only [reduceCtorEq, false_and, true_and, false_or]
    by_cases hs : systemText ms = []
    · refine iff_of_true ⟨hsys.trans ?_, hturn.trans hcontent⟩ (by simp [hs])
      split <;> simp [once, hs]
    · by_cases hall : turnsOf ms ≠ [] ∧ ∀ m ∈ turnsOf ms, m.assistant = true
      · refine iff_of_false (fun hc => ?_) (not_not.mpr ⟨hs, hall⟩)
        have hlost := hsys.symm.trans hc.system
        rw [if_pos hall, if_neg hs] at hlost
        cases hlost
      · refine iff_of_true ⟨hsys.trans ?_, hturn.trans hcontent⟩ fun hno => hall hno.2
        rw [if_neg hall, honce]
  | mistral =>
    obtain ⟨hsys, hturn⟩ := mistral_pieces (systemText ms) (turnsOf ms)
    simp only [reduceCtorEq, false_and, true_and, or_false]
    by_cases hs : systemText ms = []
    · refine iff_of_true ⟨hsys.trans ?_, hturn.trans hcontent⟩ (by simp [hs])
      split <;> simp [once, hs]
    · by_cases ht : turnsOf ms = []
      · refine iff_of_false (fun hc => ?_) (not_not.mpr ⟨hs, ht⟩)
        have hlost := hsys.symm.trans hc.system
        rw [if_pos ht, if_neg hs] at hlost
        cases hlost
      · refine iff_of_true ⟨hsys.trans ?_, hturn.trans hcontent⟩ fun hno => ht hno.2
        rw [if_neg ht, honce]

/-- Messages that are not formatted already are all kept exactly when the system text has a place. -/
theorem keeps_all_iff (chatTemplate : Bytes) (ms : List ChatMessage) (h : preformatted ms = false) :
    KeepsAll chatTemplate ms ↔ ¬ Homeless chatTemplate ms := by
  have htext : formatChatMessages chatTemplate ms = joined (chatPieces chatTemplate ms) := by
    rw [formatChatMessages, h]
    rfl
  rw [← carries_iff, KeepsAll, htext]
  exact ⟨fun hk => hk.1, fun hc => ⟨hc, fun m hm => hc.infix hm⟩⟩

/-- A question and its answer. -/
theorem answered_kept : KeepsAll (rawBytes "gemma")
    [⟨rawBytes "system", rawBytes "Be brief."⟩, ⟨rawBytes "user", rawBytes "Hi"⟩, ⟨rawBytes "model", rawBytes "Hello"⟩] :=
  (keeps_all_iff _ _ (by decide)).mpr (by
    intro hno
    rcases hno.2 with hfam | hfam
    · exact absurd hfam.1 (by decide)
    · exact absurd (hfam.2.2 ⟨false, rawBytes "Hi"⟩ (by decide)) (by decide))

/-- A system text alone is not in the text of `mistral`. -/
theorem system_alone_lost : ¬ KeepsAll (rawBytes "mistral") [⟨rawBytes "system", rawBytes "Be brief."⟩] := by
  intro hk
  exact absurd (hk.2 _ (List.mem_singleton_self _)) (by decide)

end Uaii.Tokenizers
