/-
  Uaii.Lib.Regex — a backtracking matcher, and cutting a text into pieces.

  A pattern yields what is left after each of its matches, in the order in which a
  backtracking engine finds them: the first alternative before the second, the longest
  repetition before the shorter ones. Only a class is repeated.

  A division of a text into pieces is a set of cuts: `chop`. A loop that takes a piece off
  the text's start each turn divides it as `chop` does when its pieces go from cut to cut
  (`takeBy_eq_chop`), and two sets of cuts divide a text alike exactly when they agree
  inside it (`chop_inj`).
-/

import Mathlib.Data.List.TakeDrop
import Mathlib.Data.List.TakeWhile

/-! ## Patterns -/

inductive Regex (α : Type) where
  /-- One element of a class. -/
  | one (p : α → Bool)
  /-- One or more of a class. -/
  | plus (p : α → Bool)
  | opt (r : Regex α)
  /-- What follows is not of a class. -/
  | notAhead (p : α → Bool)
  | seq (r s : Regex α)
  | alt (r s : Regex α)

namespace Regex

variable {α : Type}

/-- The longest repetition first. -/
def plusRests (p : α → Bool) : List α → List (List α)
  | [] => []
  | c :: s => if p c then plusRests p s ++ [s] else []

/-- What is left after each match. -/
def rests : Regex α → List α → List (List α)
  | one p, s =>
    match s with
    | [] => []
    | c :: t => if p c then [t] else []
  | plus p, s => plusRests p s
  | opt r, s => rests r s ++ [s]
  | notAhead p, s =>
    match s with
    | [] => [s]
    | c :: _ => if p c then [] else [s]
  | seq r t, s => (rests r s).flatMap (rests t)
  | alt r t, s => rests r s ++ rests t s

/-- The length of the first match. -/
def first (r : Regex α) (s : List α) : Option Nat := (r.rests s).head?.map fun t => s.length - t.length

def findFrom (r : Regex α) : Nat → List α → List (List α)
  | 0, _ => []
  | fuel + 1, s =>
    match s with
    | [] => []
    | _ :: t =>
      match r.first s with
      | some n => s.take n :: findFrom r fuel (s.drop n)
      | none => findFrom r fuel t

/-- The successive matches of a pattern that does not match the empty text. -/
def findAll (r : Regex α) (s : List α) : List (List α) := findFrom r s.length s

/-! ## Runs -/

/-- How many elements from the start on are of a class. -/
def runLen (p : α → Bool) (s : List α) : Nat := (s.takeWhile p).length

theorem runLen_cons (p : α → Bool) (c : α) (s : List α) : runLen p (c :: s) = if p c then runLen p s + 1 else 0 := by
  unfold runLen
  rw [List.takeWhile_cons]
  split <;> rfl

theorem runLen_le (p : α → Bool) (s : List α) : runLen p s ≤ s.length := (List.takeWhile_prefix p).length_le

theorem runLen_inside {p : α → Bool} {s : List α} {j : Nat} (h : j < runLen p s) : ∃ c, s[j]? = some c ∧ p c = true := by
  have hmem : (s.takeWhile p)[j] ∈ s.takeWhile p := List.getElem_mem h
  refine ⟨(s.takeWhile p)[j], ?_, List.mem_takeWhile_imp hmem⟩
  have hget : s[j]? = (s.takeWhile p)[j]? := by
    conv_lhs => rw [← List.takeWhile_append_dropWhile (p := p) (l := s)]
    exact List.getElem?_append_left h
  rw [hget, List.getElem?_eq_getElem h]

theorem runLen_stop {p : α → Bool} {s : List α} {c : α} (h : s[runLen p s]? = some c) : p c = false := by
  induction s with
  | nil => cases h
  | cons d s ih =>
    rw [runLen_cons] at h
    split at h
    · exact ih h
    · rename_i hd
      cases h
      exact Bool.eq_false_iff.mpr hd

/-! ## First matches -/

theorem head_alt (r t : Regex α) (s : List α) : (rests (alt r t) s).head? = (rests r s).head?.or (rests t s).head? :=
  List.head?_append

/-- A repetition takes the whole run. -/
theorem head_plus (p : α → Bool) (s : List α) :
    (rests (plus p) s).head? = if runLen p s = 0 then none else some (s.drop (runLen p s)) := by
  show (plusRests p s).head? = _
  induction s with
  | nil => rfl
  | cons c s ih =>
    rw [runLen_cons, plusRests]
    by_cases hc : p c = true
    · rw [if_pos hc, if_pos hc, if_neg (by omega), List.head?_append, ih, List.drop_succ_cons]
      by_cases h0 : runLen p s = 0
      · rw [if_pos h0, h0]
        rfl
      · rw [if_neg h0]
        rfl
    · rw [if_neg hc, if_neg hc, if_pos rfl]
      rfl

/-- A repetition that nothing of another class may follow: where something does, the run
    without its last element, if that leaves one. -/
theorem head_plus_notAhead (p : α → Bool) (s : List α) : (rests (seq (plus p) (notAhead (!p ·))) s).head? =
    if runLen p s = 0 then none
    else if runLen p s = s.length then some []
    else if runLen p s = 1 then none
    else some (s.drop (runLen p s - 1)) := by
  show ((plusRests p s).flatMap (rests (notAhead (!p ·)))).head? = _
  induction s with
  | nil => rfl
  | cons c s ih =>
    rw [runLen_cons, plusRests]
    by_cases hc : p c = true
    · rw [if_pos hc, if_pos hc, if_neg (by omega), List.flatMap_append, List.head?_append, ih, List.flatMap_singleton]
      cases s with
      | nil => rfl
      | cons d s =>
        rw [runLen_cons, rests]
        by_cases hd : p d = true
        · rw [if_pos hd, if_neg (by omega), hd]
          by_cases hend : runLen p s = s.length
          · simp [hend]
          · by_cases h0 : runLen p s = 0
            · simp [h0, show s.length ≠ 0 by omega]
            · simp [hend, h0]
        · rw [if_neg hd, if_pos rfl, Bool.eq_false_iff.mpr hd]
          simp
    · rw [if_neg hc, if_neg hc, if_pos rfl]
      rfl

/-! ## Cuts -/

/-- The text from index `i` on, cut before each index of which `cut` says so. -/
def chop (cut : Nat → Bool) : Nat → List α → List (List α)
  | _, [] => []
  | i, c :: s =>
    match chop cut (i + 1) s with
    | [] => [[c]]
    | piece :: more => if cut (i + 1) then [c] :: piece :: more else (c :: piece) :: more

/-- A loop that takes a piece off the start each turn. -/
def takeBy (len : List α → Nat) : Nat → List α → List (List α)
  | 0, _ => []
  | fuel + 1, s =>
    match s with
    | [] => []
    | _ => s.take (len s) :: takeBy len fuel (s.drop (len s))

theorem chop_cons (cut : Nat → Bool) (i : Nat) (c d : α) (s : List α) : ∃ piece more, chop cut (i + 1) (d :: s) = piece :: more ∧
    piece ≠ [] ∧ chop cut i (c :: d :: s) = if cut (i + 1) then [c] :: piece :: more else (c :: piece) :: more := by
  induction s generalizing i c d with
  | nil => exact ⟨[d], [], rfl, List.cons_ne_nil d [], rfl⟩
  | cons e s ih =>
    obtain ⟨piece, more, hrest, -, htail⟩ := ih (i + 1) d e
    by_cases hcut : cut (i + 1 + 1) = true
    · rw [if_pos hcut] at htail
      refine ⟨[d], piece :: more, htail, List.cons_ne_nil d [], ?_⟩
      rw [chop, htail]
    · rw [if_neg hcut] at htail
      refine ⟨d :: piece, more, htail, List.cons_ne_nil d piece, ?_⟩
      rw [chop, htail]

/-- Up to the first cut. -/
theorem chop_run {cut : Nat → Bool} {n : Nat} : ∀ {i : Nat} {s : List α}, 0 < n → n ≤ s.length →
    (∀ k, i < k → k < i + n → cut k = false) → (n < s.length → cut (i + n) = true) →
    chop cut i s = s.take n :: chop cut (i + n) (s.drop n) := by
  induction n with
  | zero => exact fun h => absurd h (Nat.lt_irrefl 0)
  | succ n ih =>
    intro i s _ hle hinside hend
    cases s with
    | nil => exact absurd hle (by simp)
    | cons c s =>
      cases s with
      | nil =>
        obtain rfl : n = 0 := by simpa using hle
        rfl
      | cons d s =>
        obtain ⟨piece, more, hrest, -, hchop⟩ := chop_cons cut i c d s
        rw [hchop]
        cases n with
        | zero =>
          rw [if_pos (hend (by simp)), ← hrest]
          rfl
        | succ n =>
          have htail := ih (i := i + 1) (s := d :: s) (by omega) (by simpa using hle)
            (fun k hlo hhi => hinside k (by omega) (by omega))
            (fun hlt => by
              have hcut := hend (by simpa using hlt)
              rwa [show i + (n + 1 + 1) = i + 1 + (n + 1) by omega] at hcut)
          rw [hrest] at htail
          cases htail
          rw [if_neg (by rw [hinside (i + 1) (by omega) (by omega)]; exact Bool.false_ne_true),
            show i + 1 + (n + 1) = i + (n + 1 + 1) by omega]
          rfl

/-- A loop whose pieces go from cut to cut. -/
theorem takeBy_eq_chop {len : List α → Nat} {cut : Nat → Bool} {s : List α}
    (h : ∀ i < s.length, (i = 0 ∨ cut i = true) → 0 < len (s.drop i) ∧ i + len (s.drop i) ≤ s.length ∧
      (i + len (s.drop i) < s.length → cut (i + len (s.drop i)) = true) ∧
      ∀ k, i < k → k < i + len (s.drop i) → cut k = false) : takeBy len s.length s = chop cut 0 s := by
  have hfrom : ∀ fuel i, s.length ≤ i + fuel → (i < s.length → i = 0 ∨ cut i = true) →
      takeBy len fuel (s.drop i) = chop cut i (s.drop i) := by
    intro fuel
    induction fuel with
    | zero =>
      intro i hi _
      rw [List.drop_eq_nil_of_le (by omega)]
      rfl
    | succ fuel ih =>
      intro i hi hstart
      by_cases hlt : i < s.length
      · obtain ⟨hpos, hle, hend, hinside⟩ := h i hlt (hstart hlt)
        have hrest := ih (i + len (s.drop i)) (by omega) fun hlt => .inr (hend hlt)
        rw [chop_run hpos (by rw [List.length_drop]; omega) hinside (fun hlt => hend (by rw [List.length_drop] at hlt; omega)),
          List.drop_drop, ← hrest]
        rw [takeBy.eq_def]
        dsimp only
        split
        · rename_i hnil
          have hlen := congrArg List.length hnil
          rw [List.length_drop, List.length_nil] at hlen
          omega
        · rw [List.drop_drop]
      · rw [List.drop_eq_nil_of_le (by omega)]
        rfl
  simpa using hfrom s.length 0 (by omega) fun _ => .inl rfl

/-- Two sets of cuts divide a text alike. -/
theorem chop_inj {cut cut' : Nat → Bool} {s : List α} {i : Nat} :
    chop cut i s = chop cut' i s ↔ ∀ k, i < k → k < i + s.length → cut k = cut' k := by
  induction s generalizing i with
  | nil => exact iff_of_true rfl fun k hlo hhi => absurd hhi (by rw [List.length_nil]; omega)
  | cons c s ih =>
    cases s with
    | nil => exact iff_of_true rfl fun k hlo hhi => absurd hhi (by rw [List.length_singleton]; omega)
    | cons d s =>
      obtain ⟨piece, more, hrest, hne, hchop⟩ := chop_cons cut i c d s
      obtain ⟨piece', more', hrest', hne', hchop'⟩ := chop_cons cut' i c d s
      have hsplit : (∀ k, i < k → k < i + (c :: d :: s).length → cut k = cut' k) ↔
          cut (i + 1) = cut' (i + 1) ∧ ∀ k, i + 1 < k → k < i + 1 + (d :: s).length → cut k = cut' k := by
        simp only [List.length_cons]
        apply Iff.intro
        · intro h
          exact ⟨h _ (by omega) (by omega), fun k hlo hhi => h k (by omega) (by omega)⟩
        · rintro ⟨hfirst, h⟩ k hlo hhi
          by_cases hk : k = i + 1
          · rw [hk, hfirst]
          · exact h k (by omega) (by omega)
      rw [hsplit, ← ih, hrest, hrest', hchop, hchop']
      cases cut (i + 1) <;> cases cut' (i + 1)
      · simp
      · simp [hne]
      · simp [Ne.symm hne']
      · simp

theorem chop_map {β : Type} (cut : Nat → Bool) (f : α → β) (i : Nat) (s : List α) :
    (chop cut i s).map (List.map f) = chop cut i (s.map f) := by
  induction s generalizing i with
  | nil => rfl
  | cons c s ih =>
    rw [List.map_cons, chop, chop, ← ih]
    cases chop cut (i + 1) s with
    | nil => rfl
    | cons piece more =>
      rw [List.map_cons]
      dsimp only
      split <;> rfl

theorem chop_flatten (cut : Nat → Bool) (i : Nat) (s : List α) : (chop cut i s).flatten = s := by
  induction s generalizing i with
  | nil => rfl
  | cons c s ih =>
    have hrest := ih (i + 1)
    rw [chop]
    cases hchop : chop cut (i + 1) s with
    | nil =>
      rw [hchop] at hrest
      rw [← hrest]
      rfl
    | cons piece more =>
      rw [hchop, List.flatten_cons] at hrest
      dsimp only
      split
      · rw [List.flatten_cons, List.flatten_cons, hrest]
        rfl
      · rw [List.flatten_cons, List.cons_append, hrest]

/-- Where there is always a match. -/
theorem findAll_eq_takeBy {r : Regex α} (h : ∀ s ≠ [], (r.first s).isSome = true) (s : List α) :
    findAll r s = takeBy (fun s => (r.first s).getD 0) s.length s := by
  have hfrom : ∀ fuel s, findFrom r fuel s = takeBy (fun s => (r.first s).getD 0) fuel s := by
    intro fuel
    induction fuel with
    | zero => exact fun _ => rfl
    | succ fuel ih =>
      intro s
      cases s with
      | nil => rfl
      | cons c t =>
        obtain ⟨n, hn⟩ := Option.isSome_iff_exists.mp (h (c :: t) (List.cons_ne_nil c t))
        simp only [findFrom, takeBy, hn, Option.getD_some, ih]
  exact hfrom s.length s

end Regex
