/-
  Uaii.Core.Error — `uaii::Error` and what else a call can end in
  (`include/uaii/core/error.hpp`).

  A function of the code returns an `Error` and writes its results through out
  pointers; here it returns `Result α`: the results, or the fault that stopped it.
  Besides the code's own errors a call can leave through a C++ exception
  (`std::length_error` of a vector that would be too long) or run into undefined
  behaviour (a read past the end of a buffer, a null pointer): the model keeps the
  three apart, so that "returns an error" never covers a crash.

  `wrap64` is what `size_t` and `uint64_t` arithmetic does to a number.
-/

import Mathlib.Algebra.Order.Ring.Int
import Mathlib.Data.List.Basic

namespace Uaii

inductive ErrorCode where
  | invalidArgument
  | notFound
  | ioError
  | configError
  | pluginError
  | abiMismatch
  | notImplemented
  | internal
  deriving DecidableEq, Repr

inductive Fault where
  /-- `return Error::make(code, message)`. -/
  | error (code : ErrorCode) (message : String)
  /-- A C++ exception leaves the function. -/
  | thrown (what : String)
  /-- Undefined behaviour. -/
  | undefined (what : String)
  deriving DecidableEq, Repr

abbrev Result (α : Type) := Except Fault α

variable {α β : Type}

def fail (code : ErrorCode) (message : String) : Result α := .error (.error code message)

/-- The call returned an `Error` (as opposed to a crash or an exception). -/
def Failed (r : Result α) : Prop := ∃ code message, r = .error (.error code message)

/-- The call returned success, as far as what it did is defined. -/
def Passed (r : Result α) : Prop := (∃ a, r = .ok a) ∨ ∃ what, r = .error (.undefined what)

/-- Unsigned 64-bit arithmetic. -/
def wrap64 (n : Nat) : Nat := n % 2 ^ 64

/-- `static_cast<std::int64_t>` of a 64-bit word. -/
def toI64 (n : Nat) : Int := if wrap64 n < 2 ^ 63 then wrap64 n else (wrap64 n : Int) - 2 ^ 64

theorem wrap64_of_lt {n : Nat} (h : n < 2 ^ 64) : wrap64 n = n := Nat.mod_eq_of_lt h

theorem wrap64_le (n : Nat) : wrap64 n ≤ n := Nat.mod_le _ _

theorem toI64_of_lt {n : Nat} (h : n < 2 ^ 63) : toI64 n = n := by
  have hw : wrap64 n = n := wrap64_of_lt (by omega)
  rw [toI64, hw, if_pos h]

/-- The results of a `do` block that succeeded, step by step. -/
theorem bind_ok {x : Result α} {f : α → Result β} {b : β} (h : x >>= f = .ok b) :
    ∃ a, x = .ok a ∧ f a = .ok b := by
  cases x with
  | error e => cases h
  | ok a => exact ⟨a, rfl, h⟩

theorem Passed.first {x : Result α} {f : α → Result β} (h : Passed (x >>= f)) : Passed x := by
  cases x with
  | ok a => exact .inl ⟨a, rfl⟩
  | error e =>
    rcases h with ⟨b, hb⟩ | ⟨what, hw⟩
    · cases hb
    · cases hw
      exact .inr ⟨what, rfl⟩

/-- A first step that is always defined. -/
theorem Passed.bind {x : Result α} {f : α → Result β} (h : Passed (x >>= f)) (hx : ∀ what, x ≠ .error (.undefined what)) :
    ∃ a, x = .ok a ∧ Passed (f a) := by
  cases x with
  | ok a => exact ⟨a, rfl, h⟩
  | error e =>
    rcases h.first with ⟨a, ha⟩ | ⟨what, hw⟩
    · cases ha
    · exact absurd hw (hx what)

theorem fail_not_passed {code : ErrorCode} {message : String} : ¬ Passed (fail code message : Result α) := by
  intro h
  rcases h with ⟨a, ha⟩ | ⟨what, hw⟩
  · cases ha
  · cases hw

@[simp] theorem ok_bind (a : α) (f : α → Result β) : ((.ok a : Result α) >>= f) = f a := rfl

@[simp] theorem error_bind (e : Fault) (f : α → Result β) : ((.error e : Result α) >>= f) = .error e := rfl

@[simp] theorem fail_ne_ok (code : ErrorCode) (message : String) (a : α) : fail code message ≠ .ok a := by
  intro h; cases h

end Uaii
