/-
  Uaii.Loaders.BlockNames — telling the tensors of the blocks apart by their names.

  A block's number is written between its prefix and a dot, an expert's at the end of the
  reference to its slice; neither a dot nor `=` is a digit.
-/

import Uaii.Ir.Reads
import Uaii.Loaders.LoadedGraphs

namespace Uaii.Loaders

open Uaii.Ir

theorem toText_toList (n : Nat) : (toText (n : Int)).toList = Nat.toDigits 10 n := by
  have hpos : ¬ (n : Int) < 0 := by omega
  simp [toText, TextStream.integer, TextStream.decimal, hpos]

theorem toText_inj {m n : Nat} (h : toText (m : Int) = toText (n : Int)) : m = n := by
  have hdigits := congrArg (Decimal.digits ∘ String.toList) h
  simpa [toText_toList] using hdigits

theorem isDigit_toText {n : Nat} {c : Char} (hc : c ∈ (toText (n : Int)).toList) : c.isDigit = true := by
  rw [toText_toList] at hc
  exact Decimal.toDigits_isDigit hc

theorem toText_ne_nil (n : Nat) : (toText (n : Int)).toList ≠ [] := by
  obtain ⟨d, ds, hn, -⟩ := TextStream.decimal_head n
  rw [toText_toList, show Nat.toDigits 10 n = d :: ds from hn]
  exact List.cons_ne_nil _ _

/-- The number and the rest of the name of a block's tensor. -/
theorem block_name_inj {pfx r s : String} {i j : Nat} (h : pfx ++ toText i ++ "." ++ r = pfx ++ toText j ++ "." ++ s) : i = j ∧ r = s := by
  have hnumber : ∀ (n : Nat) (t : String), (((toText (n : Int)).toList ++ '.' :: t.toList).takeWhile Char.isDigit) = (toText (n : Int)).toList := by
    intro n t
    rw [List.takeWhile_append_of_pos fun c hc => isDigit_toText hc]
    simp
  have hlist : (toText (i : Int)).toList ++ '.' :: r.toList = (toText (j : Int)).toList ++ '.' :: s.toList := by
    simpa using congrArg String.toList h
  have htext : (toText (i : Int)).toList = (toText (j : Int)).toList := by
    rw [← hnumber i r, hlist, hnumber]
  refine ⟨toText_inj (String.toList_injective htext), String.toList_injective ?_⟩
  rw [htext] at hlist
  exact (List.cons.inj (List.append_cancel_left hlist)).2

/-- The last character is no digit. -/
def EndsInLetter (s : String) : Prop := ∃ c, s.toList.getLast? = some c ∧ c.isDigit = false

theorem EndsInLetter.append {s : String} (h : EndsInLetter s) (x : String) : EndsInLetter (x ++ s) := by
  obtain ⟨c, hlast, hc⟩ := h
  refine ⟨c, ?_, hc⟩
  rw [String.toList_append, List.getLast?_append, hlast]
  rfl

/-- What ends with a number is no name that ends with a letter. -/
theorem not_ends_digit {x s : String} {n : Nat} (hs : EndsInLetter s) : x ++ toText n ≠ s := by
  rintro rfl
  obtain ⟨c, hlast, hno⟩ := hs
  rw [String.toList_append, List.getLast?_append_of_ne_nil _ (toText_ne_nil n)] at hlast
  have hyes := isDigit_toText (List.mem_of_getLast? hlast)
  rw [hno] at hyes
  cases hyes

/-- The bank of a slice. -/
theorem slice_ref_inj {x s : String} {m n : Nat} (h : x ++ "#e=" ++ toText m = s ++ "#e=" ++ toText n) : x = s := by
  have hlist : x.toList ++ ['#', 'e'] ++ '=' :: (toText (m : Int)).toList = s.toList ++ ['#', 'e'] ++ '=' :: (toText (n : Int)).toList := by
    simpa using congrArg String.toList h
  have hrev := congrArg List.reverse hlist
  simp only [List.reverse_append, List.reverse_cons, List.append_assoc] at hrev
  have hdigits : ∀ k : Nat, ∀ rest, ((toText (k : Int)).toList.reverse ++ '=' :: rest).dropWhile Char.isDigit = '=' :: rest := by
    intro k rest
    rw [List.dropWhile_append_of_pos fun c hc => isDigit_toText (List.mem_reverse.mp hc)]
    simp
  have hdrop := congrArg (List.dropWhile Char.isDigit) hrev
  simp only [List.reverse_nil, List.nil_append, List.cons_append, hdigits] at hdrop
  refine String.toList_injective (List.reverse_injective ?_)
  simpa using hdrop

end Uaii.Loaders
