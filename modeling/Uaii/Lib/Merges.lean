/-
  Uaii.Lib.Merges — merging adjacent symbols of a word by a ranked list of pairs.

  A symbol is the string it spells. Two ways to use the list: one pass over it, each
  pair merged until none is left (`mergePass`), and always the pair of the lowest
  rank the word has, its leftmost occurrence (`reference`).

  Proved: both give the same word when no merge of the reference makes a pair of a lower
  rank adjacent (`mergePass_eq_reference`), and that is so on every word when no side of
  a pair is what a later pair makes (`ascending_of_settled`).
-/

import Mathlib.Data.List.Basic

namespace Merges

variable {α : Type}

/-- The two sides of a merge; what it makes is their concatenation. -/
abbrev Merge (α : Type) := List α × List α

/-- What the merge makes. -/
def Merge.made (m : Merge α) : List α := m.1 ++ m.2

variable [DecidableEq α]

/-- Merge the leftmost occurrence. -/
def mergeFirst (m : Merge α) : List (List α) → Option (List (List α))
  | a :: b :: w => if a = m.1 ∧ b = m.2 then some (m.made :: w) else (mergeFirst m (b :: w)).map (a :: ·)
  | _ => none

def mergeFor (m : Merge α) : Nat → List (List α) → List (List α)
  | 0, w => w
  | fuel + 1, w =>
    match mergeFirst m w with
    | none => w
    | some w' => mergeFor m fuel w'

/-- Merge until there is no occurrence; every merge shortens the word. -/
def mergeAll (m : Merge α) (w : List (List α)) : List (List α) := mergeFor m w.length w

/-- Every merge of the list in turn. -/
def mergePass (merges : List (Merge α)) (w : List (List α)) : List (List α) := merges.foldl (fun w m => mergeAll m w) w

/-- The first merge of the list that has an occurrence: its rank, counted from `r`, and the word it leaves. -/
def lowestFrom (r : Nat) : List (Merge α) → List (List α) → Option (Nat × List (List α))
  | [], _ => none
  | m :: ms, w =>
    match mergeFirst m w with
    | some w' => some (r, w')
    | none => lowestFrom (r + 1) ms w

/-- Built up in order: each side of a merge is a symbol given, or what an earlier merge makes. -/
inductive Derivable (base : List α → Prop) : List (Merge α) → Prop
  | nil : Derivable base []
  | snoc {ms : List (Merge α)} {m : Merge α} : Derivable base ms → (base m.1 ∨ ∃ p ∈ ms, m.1 = p.made) →
      (base m.2 ∨ ∃ p ∈ ms, m.2 = p.made) → Derivable base (ms ++ [m])

/-- One step of the reference: the pair of the lowest rank, leftmost. -/
def lowest (merges : List (Merge α)) (w : List (List α)) : Option (Nat × List (List α)) := lowestFrom 0 merges w

def referenceFor (merges : List (Merge α)) : Nat → List (List α) → List (List α)
  | 0, w => w
  | fuel + 1, w =>
    match lowest merges w with
    | none => w
    | some (_, w') => referenceFor merges fuel w'

/-- The reference: step until no pair of the list is adjacent. -/
def reference (merges : List (Merge α)) (w : List (List α)) : List (List α) := referenceFor merges w.length w

/-- From here on the reference's steps have ranks that never fall below the one before, starting at `r`. -/
inductive Ascending (merges : List (Merge α)) : Nat → List (List α) → Prop
  | stuck {r : Nat} {w : List (List α)} : lowest merges w = none → Ascending merges r w
  | step {r k : Nat} {w w' : List (List α)} : lowest merges w = some (k, w') → r ≤ k → Ascending merges k w' →
      Ascending merges r w

/-! ## One merge -/

/-- Where the leftmost occurrence is. -/
theorem mergeFirst_leftmost {m : Merge α} : ∀ {w w' : List (List α)}, mergeFirst m w = some w' →
    ∃ u z, w = u ++ m.1 :: m.2 :: z ∧ w' = u ++ m.made :: z ∧ mergeFirst m (u ++ [m.1]) = none := by
  intro w
  induction w with
  | nil => intro w' h; cases h
  | cons a w ih =>
    intro w' h
    cases w with
    | nil => cases h
    | cons b w =>
      rw [mergeFirst] at h
      by_cases hab : a = m.1 ∧ b = m.2
      · rw [if_pos hab] at h
        exact ⟨[], w, by rw [hab.1, hab.2]; rfl, (Option.some.inj h).symm, rfl⟩
      · rw [if_neg hab] at h
        obtain ⟨v, hv, rfl⟩ := Option.map_eq_some_iff.mp h
        obtain ⟨u, z, hw, hv', hnone⟩ := ih hv
        refine ⟨a :: u, z, by rw [hw]; rfl, by rw [hv']; rfl, ?_⟩
        cases u with
        | nil =>
          obtain ⟨rfl, -⟩ := List.cons.inj hw
          show mergeFirst m [a, m.1] = none
          rw [mergeFirst, if_neg hab]
          rfl
        | cons c u =>
          obtain ⟨rfl, -⟩ := List.cons.inj hw
          show mergeFirst m (a :: b :: (u ++ [m.1])) = none
          rw [mergeFirst, if_neg hab]
          exact Option.map_eq_none_iff.mpr hnone

theorem mergeFirst_eq {m : Merge α} {w w' : List (List α)} (h : mergeFirst m w = some w') :
    ∃ u z, w = u ++ m.1 :: m.2 :: z ∧ w' = u ++ m.made :: z := by
  obtain ⟨u, z, hw, hw', -⟩ := mergeFirst_leftmost h
  exact ⟨u, z, hw, hw'⟩

theorem mergeFirst_length {m : Merge α} {w w' : List (List α)} (h : mergeFirst m w = some w') :
    w.length = w'.length + 1 := by
  obtain ⟨u, z, rfl, rfl⟩ := mergeFirst_eq h
  simp
  omega

/-- No occurrence: the pair is nowhere adjacent. -/
theorem mergeFirst_eq_none {m : Merge α} : ∀ {w : List (List α)},
    mergeFirst m w = none ↔ ∀ u z, w ≠ u ++ m.1 :: m.2 :: z := by
  intro w
  apply Iff.intro
  · intro h u z hw
    subst hw
    induction u with
    | nil => simp [mergeFirst] at h
    | cons a u ih =>
      cases u with
      | nil =>
        rw [List.cons_append, List.nil_append, mergeFirst] at h
        by_cases hab : a = m.1 ∧ m.1 = m.2
        · rw [if_pos hab] at h
          cases h
        · rw [if_neg hab] at h
          exact ih (Option.map_eq_none_iff.mp h)
      | cons b u =>
        rw [List.cons_append, List.cons_append, mergeFirst] at h
        by_cases hab : a = m.1 ∧ b = m.2
        · rw [if_pos hab] at h
          cases h
        · rw [if_neg hab] at h
          exact ih (Option.map_eq_none_iff.mp h)
  · intro h
    cases hm : mergeFirst m w with
    | none => rfl
    | some w' =>
      obtain ⟨u, z, hw, -⟩ := mergeFirst_eq hm
      exact absurd hw (h u z)

theorem mergeAll_none {m : Merge α} {w : List (List α)} (h : mergeFirst m w = none) : mergeAll m w = w := by
  unfold mergeAll
  cases w with
  | nil => rfl
  | cons a w => rw [List.length_cons, mergeFor, h]

theorem mergeAll_some {m : Merge α} {w w' : List (List α)} (h : mergeFirst m w = some w') : mergeAll m w = mergeAll m w' := by
  unfold mergeAll
  rw [mergeFirst_length h, mergeFor, h]

/-- By the merges of one pair, each of which shortens the word. -/
theorem mergeAll_induct (m : Merge α) {P : List (List α) → Prop} (stuck : ∀ w, mergeFirst m w = none → P w)
    (step : ∀ w w', mergeFirst m w = some w' → P w' → P w) (w : List (List α)) : P w := by
  induction hn : w.length using Nat.strongRecOn generalizing w with
  | ind n ih =>
    cases hm : mergeFirst m w with
    | none => exact stuck w hm
    | some w' =>
      have hlen := mergeFirst_length hm
      exact step w w' hm (ih w'.length (by omega) w' rfl)

theorem mergeFirst_mergeAll (m : Merge α) (w : List (List α)) : mergeFirst m (mergeAll m w) = none := by
  induction w using mergeAll_induct m with
  | stuck w hm => rw [mergeAll_none hm, hm]
  | step w w' hm ih => rwa [mergeAll_some hm]

theorem mergePass_cons (m : Merge α) (ms : List (Merge α)) (w : List (List α)) :
    mergePass (m :: ms) w = mergePass ms (mergeAll m w) := rfl

theorem mergePass_stuck {w : List (List α)} : ∀ {ms : List (Merge α)}, (∀ m ∈ ms, mergeFirst m w = none) →
    mergePass ms w = w := by
  intro ms
  induction ms with
  | nil => intro _; rfl
  | cons m ms ih =>
    intro h
    rw [mergePass_cons, mergeAll_none (h m List.mem_cons_self)]
    exact ih fun m' hm' => h m' (List.mem_cons_of_mem _ hm')

/-- What one merge keeps, the pass keeps. -/
theorem mergePass_invariant {I : List (List α) → Prop} : ∀ {ms : List (Merge α)},
    (∀ m ∈ ms, ∀ w w', mergeFirst m w = some w' → I w → I w') → ∀ {w : List (List α)}, I w → I (mergePass ms w) := by
  intro ms
  induction ms with
  | nil => intro _ w h; exact h
  | cons m ms ih =>
    intro hstep w h
    rw [mergePass_cons]
    refine ih (fun m' hm' => hstep m' (List.mem_cons_of_mem _ hm')) ?_
    have hall : ∀ (n : Nat) (w : List (List α)), w.length = n → I w → I (mergeAll m w) := by
      intro n
      induction n with
      | zero =>
        intro w hw h
        rw [List.length_eq_zero_iff] at hw
        subst hw
        exact h
      | succ n ihn =>
        intro w hw h
        cases hm : mergeFirst m w with
        | none => rwa [mergeAll_none hm]
        | some w' =>
          rw [mergeAll_some hm]
          exact ihn w' (by have := mergeFirst_length hm; omega) (hstep m List.mem_cons_self w w' hm h)
    exact hall w.length w rfl h

/-- The word spells the same. -/
theorem mergePass_flatten (ms : List (Merge α)) (w : List (List α)) : (mergePass ms w).flatten = w.flatten := by
  refine mergePass_invariant (I := fun v => v.flatten = w.flatten) (fun m _ v v' hm h => ?_) rfl
  obtain ⟨u, z, rfl, rfl⟩ := mergeFirst_eq hm
  rw [← h]
  simp [Merge.made]

/-- A symbol is one of the word's or what a merge of the list makes. -/
theorem mergePass_mem {ms : List (Merge α)} {w : List (List α)} :
    ∀ s ∈ mergePass ms w, s ∈ w ∨ ∃ m ∈ ms, s = m.made := by
  refine mergePass_invariant (I := fun v => ∀ s ∈ v, s ∈ w ∨ ∃ m ∈ ms, s = m.made) (fun m hm v v' hstep h s hs => ?_)
    (fun s hs => .inl hs)
  obtain ⟨u, z, rfl, rfl⟩ := mergeFirst_eq hstep
  simp only [List.mem_append, List.mem_cons] at hs
  apply hs.elim
  · exact fun hs => h s (List.mem_append_left _ hs)
  · intro hs
    apply hs.elim
    · exact fun hs => .inr ⟨m, hm, hs⟩
    · exact fun hs => h s (List.mem_append_right _ (List.mem_cons_of_mem _ (List.mem_cons_of_mem _ hs)))

/-- What concatenation keeps holds of every symbol. -/
theorem mergePass_symbols {P : List α → Prop} (happ : ∀ a b, P a → P b → P (a ++ b)) {ms : List (Merge α)}
    {w : List (List α)} (hw : ∀ s ∈ w, P s) : ∀ s ∈ mergePass ms w, P s := by
  refine mergePass_invariant (I := fun v => ∀ s ∈ v, P s) (fun m _ v v' hstep h s hs => ?_) hw
  obtain ⟨u, z, rfl, rfl⟩ := mergeFirst_eq hstep
  simp only [List.mem_append, List.mem_cons] at hs h
  apply hs.elim
  · exact fun hs => h s (.inl hs)
  · intro hs
    apply hs.elim
    · intro hs
      rw [hs]
      exact happ _ _ (h m.1 (by simp)) (h m.2 (by simp))
    · exact fun hs => h s (.inr (.inr (.inr hs)))

/-! ## The lowest rank -/

theorem lowestFrom_none {ms : List (Merge α)} {w : List (List α)} : ∀ {r : Nat},
    lowestFrom r ms w = none ↔ ∀ m ∈ ms, mergeFirst m w = none := by
  induction ms with
  | nil => intro r; simp [lowestFrom]
  | cons m ms ih =>
    intro r
    rw [lowestFrom]
    cases hm : mergeFirst m w with
    | none => simp [ih, hm]
    | some w' => simp [hm]

/-- The merges before the one found have no occurrence. -/
theorem lowestFrom_some {ms : List (Merge α)} {w w' : List (List α)} {k : Nat} : ∀ {r : Nat},
    lowestFrom r ms w = some (k, w') →
      ∃ pre m post, ms = pre ++ m :: post ∧ k = r + pre.length ∧ mergeFirst m w = some w' ∧
        ∀ p ∈ pre, mergeFirst p w = none := by
  induction ms with
  | nil => intro r h; cases h
  | cons m ms ih =>
    intro r h
    rw [lowestFrom] at h
    cases hm : mergeFirst m w with
    | some v =>
      rw [hm] at h
      obtain ⟨rfl, rfl⟩ := Prod.mk.inj (Option.some.inj h)
      exact ⟨[], m, ms, rfl, rfl, hm, by simp⟩
    | none =>
      rw [hm] at h
      obtain ⟨pre, m', post, rfl, rfl, hm', hpre⟩ := ih h
      refine ⟨m :: pre, m', post, rfl, by rw [List.length_cons]; omega, hm', ?_⟩
      intro p hp
      cases List.mem_cons.mp hp with
      | inl he => exact he ▸ hm
      | inr hp => exact hpre p hp

theorem lowest_length {merges : List (Merge α)} {w w' : List (List α)} {k : Nat} (h : lowest merges w = some (k, w')) :
    w.length = w'.length + 1 := by
  obtain ⟨_, _, _, _, _, hm, _⟩ := lowestFrom_some h
  exact mergeFirst_length hm

theorem reference_stuck {merges : List (Merge α)} {w : List (List α)} (h : lowest merges w = none) :
    reference merges w = w := by
  unfold reference
  cases w with
  | nil => rfl
  | cons a w => rw [List.length_cons, referenceFor, h]

theorem reference_step {merges : List (Merge α)} {w w' : List (List α)} {k : Nat} (h : lowest merges w = some (k, w')) :
    reference merges w = reference merges w' := by
  unfold reference
  rw [lowest_length h, referenceFor, h]

/-- By the reference's steps, each of which shortens the word. -/
theorem reference_induct (merges : List (Merge α)) {P : List (List α) → Prop} (stuck : ∀ w, lowest merges w = none → P w)
    (step : ∀ w k w', lowest merges w = some (k, w') → P w' → P w) (w : List (List α)) : P w := by
  induction hn : w.length using Nat.strongRecOn generalizing w with
  | ind n ih =>
    cases hlow : lowest merges w with
    | none => exact stuck w hlow
    | some kw =>
      obtain ⟨k, w'⟩ := kw
      have hlen := lowest_length hlow
      exact step w k w' hlow (ih w'.length (by omega) w' rfl)

theorem lowest_reference (merges : List (Merge α)) (w : List (List α)) : lowest merges (reference merges w) = none := by
  induction w using reference_induct merges with
  | stuck w hlow => rw [reference_stuck hlow, hlow]
  | step w k w' hlow ih => rwa [reference_step hlow]

/-! ## One pass is the reference -/

/-- From rank `r` on: the merges skipped have no occurrence, the one taken is the pass's next. -/
theorem mergePass_drop {merges : List (Merge α)} {r : Nat} {w : List (List α)} (h : Ascending merges r w) :
    mergePass (merges.drop r) w = reference merges w := by
  induction h with
  | stuck hnone =>
    rw [reference_stuck hnone]
    exact mergePass_stuck fun m hm => lowestFrom_none.mp hnone m (List.mem_of_mem_drop hm)
  | @step r k w w' hlow hrk _ ih =>
    obtain ⟨pre, m, post, hms, hk, hm, hpre⟩ := lowestFrom_some hlow
    rw [Nat.zero_add] at hk
    have hdrop : merges.drop r = pre.drop r ++ m :: post := by
      rw [hms, List.drop_append_of_le_length (by omega)]
    have hdropk : merges.drop k = m :: post := by
      rw [hms, hk, List.drop_left]
    have hskip : mergePass (pre.drop r) w = w := mergePass_stuck fun p hp => hpre p (List.mem_of_mem_drop hp)
    calc mergePass (merges.drop r) w = mergePass (m :: post) (mergePass (pre.drop r) w) := by
          rw [hdrop]
          exact List.foldl_append
      _ = mergePass (m :: post) w := by rw [hskip]
      _ = mergePass (m :: post) w' := by rw [mergePass_cons, mergePass_cons, mergeAll_some hm]
      _ = reference merges w' := by rw [← ih, hdropk]
      _ = reference merges w := (reference_step hlow).symm

theorem mergePass_eq_reference {merges : List (Merge α)} {w : List (List α)} (h : Ascending merges 0 w) :
    mergePass merges w = reference merges w := mergePass_drop h

/-! ## When no step can fall back -/

/-- No merge makes a side of an earlier one. -/
def Settled (merges : List (Merge α)) : Prop := merges.Pairwise fun m m' => m'.made ≠ m.1 ∧ m'.made ≠ m.2

omit [DecidableEq α] in
/-- Two neighbours, neither of them `s`, lie on one side of `s`. -/
theorem neighbours_beside {s a b : List α} {u z u' z' : List (List α)} (ha : s ≠ a) (hb : s ≠ b)
    (h : u ++ a :: b :: z = u' ++ s :: z') : (∃ v, u' = u ++ a :: b :: v) ∨ ∃ v, z' = v ++ a :: b :: z := by
  cases List.append_eq_append_iff.mp h with
  | inl hr =>
    obtain ⟨v, hu, hz⟩ := hr
    cases v with
    | nil => exact absurd (List.cons.inj hz).1.symm ha
    | cons c v =>
      cases v with
      | nil => exact absurd (List.cons.inj (List.cons.inj hz).2).1.symm hb
      | cons d v =>
        have hz' : b :: z = d :: (v ++ s :: z') := (List.cons.inj hz).2
        obtain ⟨rfl, -⟩ := List.cons.inj hz'
        exact .inl ⟨v, by rw [hu, ← (List.cons.inj hz).1]⟩
  | inr hl =>
    obtain ⟨v, hu, hz⟩ := hl
    cases v with
    | nil => exact absurd (List.cons.inj hz).1 ha
    | cons c v => exact .inr ⟨v, (List.cons.inj hz).2⟩

theorem ascending_of_settled {merges : List (Merge α)} (hs : Settled merges) (w : List (List α)) : Ascending merges 0 w := by
  have hfrom : ∀ (w : List (List α)) (r : Nat), (∀ p ∈ merges.take r, mergeFirst p w = none) → Ascending merges r w := by
    intro w
    induction w using reference_induct merges with
    | stuck w hlow => exact fun _ _ => .stuck hlow
    | step w k w' hlow ih =>
      intro r hbelow
      obtain ⟨pre, m, post, hms, hk, hm, hpre⟩ := lowestFrom_some hlow
      rw [Nat.zero_add] at hk
      have hrk : r ≤ k := by
        apply Nat.le_of_not_lt
        intro hlt
        have hmem : m ∈ merges.take r := by
          rw [hms, List.take_append, List.mem_append]
          refine .inr ?_
          rw [show r - pre.length = (r - pre.length - 1) + 1 by omega]
          exact List.mem_cons_self
        rw [hbelow m hmem] at hm
        cases hm
      refine .step hlow hrk (ih k ?_)
      rw [hms, hk, List.take_left]
      intro p hp
      obtain ⟨u', z', hw', hmade⟩ := mergeFirst_eq hm
      have hne := (List.pairwise_append.mp (hms ▸ hs)).2.2 p hp m List.mem_cons_self
      apply mergeFirst_eq_none.mpr
      intro u z he
      -- the pair was there before the merge
      apply (neighbours_beside hne.1 hne.2 (he.symm.trans hmade)).elim
      · intro hl
        obtain ⟨v, rfl⟩ := hl
        exact mergeFirst_eq_none.mp (hpre p hp) u (v ++ m.1 :: m.2 :: z') (by rw [hw']; simp)
      · intro hr
        obtain ⟨v, rfl⟩ := hr
        exact mergeFirst_eq_none.mp (hpre p hp) (u' ++ m.1 :: m.2 :: v) z (by rw [hw']; simp)
  exact hfrom w 0 (by simp)

/-! ## A step that falls back shows

  A pair of a lower rank that a merge makes adjacent stays apart in the pass: on the part
  of the word that spells the pair the pass ends with its two sides. -/

theorem mergeFirst_at {m : Merge α} : ∀ {u : List (List α)} (z : List (List α)), mergeFirst m (u ++ [m.1]) = none →
    mergeFirst m (u ++ m.1 :: m.2 :: z) = some (u ++ m.made :: z) := by
  intro u
  induction u with
  | nil => intro z _; simp [mergeFirst]
  | cons a u ih =>
    intro z h
    have hne : mergeFirst m (u ++ [m.1]) = none := by
      apply mergeFirst_eq_none.mpr
      intro u' z' he
      exact mergeFirst_eq_none.mp h (a :: u') z' (by rw [List.cons_append, he]; rfl)
    have hlater := ih z hne
    cases u with
    | nil =>
      have hab : ¬ (a = m.1 ∧ m.1 = m.2) := by
        intro hab
        apply mergeFirst_eq_none.mp h [] []
        show [a, m.1] = [m.1, m.2]
        rw [hab.1, ← hab.2]
      show mergeFirst m (a :: m.1 :: m.2 :: z) = _
      rw [mergeFirst, if_neg hab, show m.1 :: m.2 :: z = [] ++ m.1 :: m.2 :: z from rfl, hlater]
      rfl
    | cons b u =>
      have hab : ¬ (a = m.1 ∧ b = m.2) := by
        intro hab
        apply mergeFirst_eq_none.mp h [] (u ++ [m.1])
        rw [hab.1, hab.2]
        rfl
      show mergeFirst m (a :: b :: (u ++ m.1 :: m.2 :: z)) = _
      rw [mergeFirst, if_neg hab, show b :: (u ++ m.1 :: m.2 :: z) = b :: u ++ m.1 :: m.2 :: z from rfl, hlater]
      rfl

/-- Leftmost merges of one pair, one after the other. -/
inductive Merged (m : Merge α) : List (List α) → List (List α) → Prop
  | refl (w : List (List α)) : Merged m w w
  | step {w w' w'' : List (List α)} : mergeFirst m w = some w' → Merged m w' w'' → Merged m w w''

theorem Merged.mergeAll_eq {m : Merge α} {w w' : List (List α)} (h : Merged m w w') : mergeAll m w = mergeAll m w' := by
  induction h with
  | refl w => rfl
  | step hm _ ih => rw [mergeAll_some hm, ih]

theorem Merged.snoc {m : Merge α} {w w' w'' : List (List α)} (h : Merged m w w') (hm : mergeFirst m w' = some w'') :
    Merged m w w'' := by
  induction h with
  | refl w => exact .step hm (.refl _)
  | step h _ ih => exact .step h (ih hm)

theorem merged_mergeAll (m : Merge α) (w : List (List α)) : Merged m w (mergeAll m w) := by
  induction w using mergeAll_induct m with
  | stuck w hm =>
    rw [mergeAll_none hm]
    exact .refl _
  | step w w' hm ih =>
    rw [mergeAll_some hm]
    exact .step hm ih

/-- A boundary that is left was there before, and each side was merged by itself. -/
theorem Merged.split {m : Merge α} {w w' : List (List α)} (h : Merged m w w') : ∀ {x' y' : List (List α)},
    w' = x' ++ y' → ∃ x y, w = x ++ y ∧ Merged m x x' ∧ Merged m y y' := by
  induction h with
  | refl w => intro x' y' he; exact ⟨x', y', he, .refl _, .refl _⟩
  | @step w w₁ w' hm _ ih =>
    intro x' y' he
    obtain ⟨x, y, hxy, hx, hy⟩ := ih he
    obtain ⟨u, z, rfl, rfl, hnone⟩ := mergeFirst_leftmost hm
    -- the new symbol is on one side
    cases List.append_eq_append_iff.mp hxy with
    | inl hr =>
      obtain ⟨v, rfl, hz⟩ := hr
      cases v with
      | nil =>
        have hz' : m.made :: z = y := hz
        subst hz'
        have hstep : mergeFirst m (m.1 :: m.2 :: z) = some (m.made :: z) := mergeFirst_at (u := []) z rfl
        exact ⟨u, m.1 :: m.2 :: z, rfl, by simpa using hx, .step hstep hy⟩
      | cons c v =>
        obtain ⟨rfl, rfl⟩ := List.cons.inj hz
        exact ⟨u ++ m.1 :: m.2 :: v, y, by simp, .step (mergeFirst_at v hnone) hx, hy⟩
    | inr hl =>
      obtain ⟨v, rfl, rfl⟩ := hl
      refine ⟨x, v ++ m.1 :: m.2 :: z, by simp, hx, .step (mergeFirst_at z ?_) hy⟩
      apply mergeFirst_eq_none.mpr
      intro u' z' he
      exact mergeFirst_eq_none.mp hnone (x ++ u') z' (by rw [List.append_assoc, he]; simp)

theorem mergePass_split : ∀ {ms : List (Merge α)} {w x' y' : List (List α)}, mergePass ms w = x' ++ y' →
    ∃ x y, w = x ++ y ∧ mergePass ms x = x' ∧ mergePass ms y = y' := by
  intro ms
  induction ms with
  | nil => intro w x' y' h; exact ⟨x', y', h, rfl, rfl⟩
  | cons m ms ih =>
    intro w x' y' h
    obtain ⟨x₁, y₁, h₁, hx, hy⟩ := ih (mergePass_cons m ms w ▸ h)
    obtain ⟨x, y, hw, hmx, hmy⟩ := (merged_mergeAll _ w).split h₁
    have hdone : mergeFirst m (x₁ ++ y₁) = none := h₁ ▸ mergeFirst_mergeAll m w
    have hdx : mergeFirst m x₁ = none := mergeFirst_eq_none.mpr fun u z he =>
      mergeFirst_eq_none.mp hdone u (z ++ y₁) (by rw [he]; simp)
    have hdy : mergeFirst m y₁ = none := mergeFirst_eq_none.mpr fun u z he =>
      mergeFirst_eq_none.mp hdone (x₁ ++ u) z (by rw [he]; simp)
    refine ⟨x, y, hw, ?_, ?_⟩
    · rw [mergePass_cons, hmx.mergeAll_eq, mergeAll_none hdx, hx]
    · rw [mergePass_cons, hmy.mergeAll_eq, mergeAll_none hdy, hy]

/-- Where the pass is when the reference's last step had rank `r`. -/
def PassAt (merges : List (Merge α)) (w₀ : List (List α)) (r : Nat) (w : List (List α)) : Prop :=
  ∃ m, merges[r]? = some m ∧ Merged m (mergePass (merges.take r) w₀) w

/-- The pass skips the merges that have no occurrence. -/
theorem mergePass_take {merges : List (Merge α)} {w w' : List (List α)} {k : Nat} (r : Nat)
    (hlow : lowest merges w = some (k, w')) :
    mergePass ((merges.take k).drop r) w = w ∧ ∃ m, merges[k]? = some m ∧ mergeFirst m w = some w' := by
  obtain ⟨pre, m, post, hms, hk, hm, hpre⟩ := lowestFrom_some hlow
  rw [Nat.zero_add] at hk
  refine ⟨mergePass_stuck fun p hp => hpre p ?_, m, by rw [hms, hk]; simp, hm⟩
  have htake : merges.take k = pre := by rw [hms, hk, List.take_left]
  exact List.mem_of_mem_drop (htake ▸ hp)

theorem passAt_first {merges : List (Merge α)} {w₀ w' : List (List α)} {k : Nat} (hlow : lowest merges w₀ = some (k, w')) :
    PassAt merges w₀ k w' := by
  obtain ⟨hskip, m, hm, hfirst⟩ := mergePass_take 0 hlow
  refine ⟨m, hm, ?_⟩
  rw [List.drop_zero] at hskip
  rw [hskip]
  exact .step hfirst (.refl _)

theorem PassAt.next {merges : List (Merge α)} {w₀ w w' : List (List α)} {r k : Nat} (hat : PassAt merges w₀ r w)
    (hlow : lowest merges w = some (k, w')) (hrk : r ≤ k) : PassAt merges w₀ k w' := by
  obtain ⟨m, hm, hrun⟩ := hat
  obtain ⟨hskip, m', hm', hfirst⟩ := mergePass_take r hlow
  refine ⟨m', hm', ?_⟩
  by_cases he : r = k
  · subst he
    obtain rfl := Option.some.inj (hm.symm.trans hm')
    exact hrun.snoc hfirst
  -- rank `r` is done, and the ranks up to `k` have no occurrence
  have hsplit : merges.take k = merges.take r ++ (merges.take k).drop r := by
    conv_lhs => rw [← List.take_append_drop r (merges.take k), List.take_take, Nat.min_eq_left hrk]
  have hdrop : (merges.take k).drop r = m :: (merges.take k).drop (r + 1) := by
    obtain ⟨hr, hmr⟩ := List.getElem?_eq_some_iff.mp hm
    rw [List.drop_eq_getElem_cons (by rw [List.length_take]; omega), List.getElem_take, hmr]
  have hw : mergePass (merges.take k) w₀ = w := by
    calc mergePass (merges.take k) w₀ = mergePass ((merges.take k).drop r) (mergePass (merges.take r) w₀) := by
          conv_lhs => rw [hsplit]
          exact List.foldl_append
      _ = mergePass ((merges.take k).drop r) w := by rw [hdrop, mergePass_cons, mergePass_cons, hrun.mergeAll_eq]
      _ = w := hskip
  rw [hw]
  exact .step hfirst (.refl _)

/-- A pair of a lower rank in reach: the pass and the reference differ on the part of the word that spells it. -/
theorem differ_of_lower {merges : List (Merge α)} (hnd : merges.Nodup) {w₀ w w' : List (List α)} {r k : Nat}
    (hat : PassAt merges w₀ r w) (hlow : lowest merges w = some (k, w')) (hkr : k < r) :
    ∃ u v z, w₀ = u ++ v ++ z ∧ mergePass merges v ≠ reference merges v := by
  obtain ⟨m, hm, hrun⟩ := hat
  obtain ⟨pre, c, post, hms, hk, hc, -⟩ := lowestFrom_some hlow
  rw [Nat.zero_add] at hk
  obtain ⟨u', z', hw, -⟩ := mergeFirst_eq hc
  -- the two sides, in the word the pass had before rank `r`, and in `w₀`
  have hw' : w = u' ++ ([c.1, c.2] ++ z') := hw
  obtain ⟨x₁, y₁, h₁, -, hrun₁⟩ := hrun.split hw'
  obtain ⟨s, t, h₂, hrun₂, -⟩ := hrun₁.split rfl
  obtain ⟨u, y, hw₀, -, hy⟩ := mergePass_split h₁
  obtain ⟨v, z, rfl, hv, -⟩ := mergePass_split (hy.trans h₂)
  refine ⟨u, v, z, by rw [hw₀, List.append_assoc], ?_⟩
  have hck : merges[k]? = some c := by rw [hms, hk]; simp
  -- no merge from rank `r` on is that pair
  have hother : ∀ p, p ∈ merges.drop r → mergeFirst p [c.1, c.2] = none := by
    intro p hp
    obtain ⟨i, hi, rfl⟩ := List.mem_iff_getElem.mp hp
    rw [mergeFirst, if_neg]
    · rfl
    · intro he
      rw [List.getElem_drop] at he
      rw [List.length_drop] at hi
      have hidx : merges[r + i]? = merges[k]? := by
        rw [hck, List.getElem?_eq_getElem (by omega)]
        exact congrArg some (Prod.ext he.1.symm he.2.symm)
      have := (List.getElem?_inj (i := r + i) (j := k) (by omega) hnd).mp hidx
      omega
  have hdrop : merges.drop r = m :: merges.drop (r + 1) := by
    obtain ⟨hr, hmr⟩ := List.getElem?_eq_some_iff.mp hm
    rw [← hmr]
    exact List.drop_eq_getElem_cons hr
  have hpass : mergePass merges v = [c.1, c.2] := by
    calc mergePass merges v = mergePass (merges.drop r) (mergePass (merges.take r) v) := by
          show merges.foldl _ v = _
          conv_lhs => rw [← List.take_append_drop r merges, List.foldl_append]
          rfl
      _ = mergePass (merges.drop (r + 1)) (mergeAll m s) := by rw [hv, hdrop, mergePass_cons]
      _ = mergePass (merges.drop (r + 1)) (mergeAll m [c.1, c.2]) := by rw [hrun₂.mergeAll_eq]
      _ = mergePass (merges.drop r) [c.1, c.2] := by rw [hdrop, mergePass_cons]
      _ = [c.1, c.2] := mergePass_stuck hother
  intro he
  have hstuck := lowest_reference merges v
  rw [← he, hpass] at hstuck
  have hcnone := lowestFrom_none.mp hstuck c (List.mem_of_getElem? hck)
  simp [mergeFirst] at hcnone

/-- On words closed under parts, the pass is the reference exactly where the reference never falls back. -/
theorem mergePass_eq_reference_iff {merges : List (Merge α)} (hnd : merges.Nodup) {P : List (List α) → Prop}
    (hpart : ∀ u v z, P (u ++ v ++ z) → P v) :
    (∀ w, P w → mergePass merges w = reference merges w) ↔ ∀ w, P w → Ascending merges 0 w := by
  apply Iff.intro
  · intro hall w₀ hP
    have hnot : ∀ {w w' : List (List α)} {r k : Nat}, PassAt merges w₀ r w → lowest merges w = some (k, w') → r ≤ k := by
      intro w w' r k hat hlow
      apply Nat.le_of_not_lt
      intro hkr
      obtain ⟨u, v, z, rfl, hne⟩ := differ_of_lower hnd hat hlow hkr
      exact hne (hall v (hpart u v z hP))
    have hrun : ∀ (w : List (List α)) (r : Nat), PassAt merges w₀ r w → Ascending merges r w := by
      intro w
      induction w using reference_induct merges with
      | stuck w hlow => exact fun _ _ => .stuck hlow
      | step w k w' hlow ih =>
        intro r hat
        have hrk := hnot hat hlow
        exact .step hlow hrk (ih k (hat.next hlow hrk))
    cases hlow : lowest merges w₀ with
    | none => exact .stuck hlow
    | some kw =>
      obtain ⟨k, w'⟩ := kw
      exact .step hlow (Nat.zero_le k) (hrun w' k (passAt_first hlow))
  · intro hasc w hP
    exact mergePass_eq_reference (hasc w hP)

end Merges
