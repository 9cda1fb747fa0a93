/-
  Uaii.Lib.Sliding — a window that keeps its first elements, the sink, and the last ones.

  Proved: making room for what comes and adding it is looking at the longer history
  through the window (`window_append`), so a window that slides step by step is the
  window of the whole.
-/

import Mathlib.Data.List.Basic

namespace Sliding

variable {α : Type} {sink size : Nat}

/-- The history if it fits, else its first `sink` and its last `size - sink` elements. -/
def window (sink size : Nat) (h : List α) : List α :=
  if h.length ≤ size then h else h.take sink ++ h.drop (h.length - (size - sink))

/-- Room for `n` more: what does not fit is dropped after the sink. -/
def makeRoom (sink size n : Nat) (w : List α) : List α :=
  if w.length + n ≤ size then w else w.take sink ++ w.drop (sink + (w.length + n - size))

theorem window_length (h : List α) (hs : sink ≤ size) : (window sink size h).length = min h.length size := by
  unfold window
  split
  · omega
  · simp only [List.length_append, List.length_take, List.length_drop]
    omega

theorem makeRoom_length {n : Nat} {w : List α} (hn : n ≤ size - sink) (hs : sink ≤ size) :
    (makeRoom sink size n w).length = min w.length (size - n) := by
  unfold makeRoom
  split
  · omega
  · simp only [List.length_append, List.length_take, List.length_drop]
    omega

theorem makeRoom_of_fits {n : Nat} {w : List α} (h : w.length + n ≤ size) : makeRoom sink size n w = w := if_pos h

/-- Sliding by a step. -/
theorem window_append {h new : List α} (hs : sink ≤ size) (hn : new.length ≤ size - sink) :
    makeRoom sink size new.length (window sink size h) ++ new = window sink size (h ++ new) := by
  by_cases hall : h.length + new.length ≤ size
  · have hw : window sink size h = h := if_pos (by omega)
    rw [hw, makeRoom_of_fits hall, window, if_pos (by rwa [List.length_append])]
  have hcut : window sink size (h ++ new) = h.take sink ++ h.drop (h.length + new.length - (size - sink)) ++ new := by
    rw [window, if_neg (by rwa [List.length_append]), List.length_append, List.take_append_of_le_length (by omega),
      List.drop_append_of_le_length (by omega), List.append_assoc]
  rw [hcut]
  congr 1
  by_cases hfits : h.length ≤ size
  · have hw : window sink size h = h := if_pos hfits
    rw [hw, makeRoom, if_neg hall]
    congr 2
    omega
  · -- the window is full, and what it drops is what comes after its sink
    have hlen := window_length h hs
    have htake : (h.take sink).length = sink := List.length_take_of_le (by omega)
    by_cases hnone : new.length = 0
    · rw [hnone, makeRoom_of_fits (by omega), window, if_neg hfits, Nat.add_zero]
    · rw [makeRoom, if_neg (by omega), hlen, window, if_neg hfits, List.take_append_of_le_length (by omega),
        List.take_of_length_le (by omega), List.drop_append, htake, List.drop_of_length_le (by omega), List.nil_append,
        List.drop_drop]
      congr 2
      omega

end Sliding
