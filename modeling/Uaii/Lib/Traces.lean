/-
  Uaii.Lib.Traces — what comes after what in a trace that grows at its end.

  `FollowedBy p q` says that a `q` comes after every `p`: it is lost when a `p` comes
  (`FollowedBy.snoc` asks that none does) and regained when a `q` comes (`followedBy_last`).
-/

import Mathlib.Data.List.Basic

namespace Traces

variable {α : Type} {p q : α → Prop} {t : List α} {a : α}

/-- After every `p` comes a `q`. -/
def FollowedBy (p q : α → Prop) (t : List α) : Prop := ∀ pre a mid, t = pre ++ a :: mid → p a → ∃ b ∈ mid, q b

theorem followedBy_nil (p q : α → Prop) : FollowedBy p q [] := by
  intro pre a mid h
  simp at h

/-- The last of a trace that is not empty, and where an element of it is. -/
theorem snoc_split {b : α} {pre mid : List α} (h : t ++ [b] = pre ++ a :: mid) :
    (mid = [] ∧ a = b ∧ t = pre) ∨ ∃ mid', mid = mid' ++ [b] ∧ t = pre ++ a :: mid' := by
  rcases List.eq_nil_or_concat mid with rfl | ⟨mid', c, rfl⟩
  · obtain ⟨rfl, hb⟩ := List.append_inj' h rfl
    exact .inl ⟨rfl, (List.cons.inj hb).1.symm, rfl⟩
  · rw [List.concat_eq_append, ← List.cons_append, ← List.append_assoc] at h
    obtain ⟨ht, hb⟩ := List.append_inj' h rfl
    obtain rfl := (List.cons.inj hb).1
    exact .inr ⟨mid', List.concat_eq_append, ht⟩

theorem FollowedBy.snoc (h : FollowedBy p q t) (ha : ¬ p a) : FollowedBy p q (t ++ [a]) := by
  intro pre b mid hsplit hb
  rcases snoc_split hsplit with ⟨-, rfl, -⟩ | ⟨mid', rfl, ht⟩
  · exact absurd hb ha
  · obtain ⟨c, hc, hq⟩ := h pre b mid' ht hb
    exact ⟨c, List.mem_append_left _ hc, hq⟩

/-- A `q` that ends a trace follows all of it. -/
theorem followedBy_last (ha : q a) (hp : ¬ p a) : FollowedBy p q (t ++ [a]) := by
  intro pre b mid hsplit hb
  rcases snoc_split hsplit with ⟨-, rfl, -⟩ | ⟨mid', rfl, -⟩
  · exact absurd hb hp
  · exact ⟨a, by simp, ha⟩

end Traces
