/-
  Uaii.Lib.Recorded — a reader that can raise, beside one that records why.

  A `Recorder` reads what the reader reads and never raises; it records tokens, also when
  it gives up. `Decides`: the reader raises exactly when a recorded token is not good, and
  otherwise gives what the recorder gives, or returns an error where it gives up. The
  rules follow how the two are put together.
-/

import Uaii.Lib.Codec

namespace Codec

/-- Takes symbols from the front of what is left; none when it gives up. -/
def Recorder (σ τ α : Type) := List σ → List τ × Option (α × List σ)

variable {σ τ ε α β : Type}

instance : Monad (Recorder σ τ) where
  pure a := fun s => ([], some (a, s))
  bind q g := fun s =>
    match q s with
    | (ts, none) => (ts, none)
    | (ts, some (a, s')) => (ts ++ (g a s').1, (g a s').2)

namespace Recorder

def record (t : τ) : Recorder σ τ Unit := fun s => ([t], some ((), s))

/-- A reader that does not raise. -/
def quiet (r : Reader σ ε α) : Recorder σ τ α := fun s => ([], (r.run s).toOption)

variable {q : Recorder σ τ α} {g : α → Recorder σ τ β} {s : List σ} {ts : List τ}

theorem bind_none (h : q s = (ts, none)) : (q >>= g) s = (ts, none) := by
  show (match q s with
    | (ts, none) => (ts, none)
    | (ts, some (a, s')) => (ts ++ (g a s').1, (g a s').2)) = _
  rw [h]

theorem bind_some {a : α} {s' : List σ} (h : q s = (ts, some (a, s'))) :
    (q >>= g) s = (ts ++ (g a s').1, (g a s').2) := by
  show (match q s with
    | (ts, none) => (ts, none)
    | (ts, some (a, s')) => (ts ++ (g a s').1, (g a s').2)) = _
  rw [h]

theorem bind_given {b : β} {rest : List σ} (h : ((q >>= g) s).2 = some (b, rest)) :
    ∃ a s', (q s).2 = some (a, s') ∧ (g a s').2 = some (b, rest) := by
  rcases hq : q s with ⟨ts, _ | ⟨a, s'⟩⟩
  · rw [bind_none hq] at h
    cases h
  · rw [bind_some hq] at h
    exact ⟨a, s', rfl, h⟩

theorem quiet_given {r : Reader σ ε α} {a : α} {rest : List σ} (h : ((quiet r : Recorder σ τ α) s).2 = some (a, rest)) :
    r.run s = .ok (a, rest) := by
  have hrun : (r.run s).toOption = some (a, rest) := h
  cases hr : r.run s with
  | error e => rw [hr] at hrun; cases hrun
  | ok p => rw [hr] at hrun; cases hrun; rfl

end Recorder

open Recorder

/-- What a reader does where this was recorded. -/
inductive Decides (good : τ → Prop) (returned raised : ε → Prop) :
    List τ × Option (α × List σ) → Except ε (α × List σ) → Prop where
  | raises {o : List τ × Option (α × List σ)} {t : τ} {e : ε} (ht : t ∈ o.1) (hbad : ¬ good t) (he : raised e) :
    Decides good returned raised o (.error e)
  | returns {ts : List τ} {e : ε} (hgood : ∀ t ∈ ts, good t) (he : returned e) : Decides good returned raised (ts, none) (.error e)
  | gives {ts : List τ} {p : α × List σ} (hgood : ∀ t ∈ ts, good t) : Decides good returned raised (ts, some p) (.ok p)

namespace Decides

variable {good : τ → Prop} {returned raised : ε → Prop} {r : Reader σ ε α} {q : Recorder σ τ α} {f : α → Reader σ ε β}
  {g : α → Recorder σ τ β} {s : List σ}

theorem pure (a : α) (s : List σ) :
    Decides good returned raised ((Pure.pure a : Recorder σ τ α) s) ((Pure.pure a : Reader σ ε α).run s) :=
  gives (List.forall_mem_nil _)

/-- One after the other. -/
theorem bind (h : Decides good returned raised (q s) (r.run s))
    (hf : ∀ a s', (q s).2 = some (a, s') → Decides good returned raised (g a s') ((f a).run s')) :
    Decides good returned raised ((q >>= g) s) ((r >>= f).run s) := by
  rw [StateT.run_bind]
  generalize hr : r.run s = x at h
  rcases hq : q s with ⟨ts, _ | ⟨a, s'⟩⟩
  · rw [hq] at h
    rw [bind_none hq]
    cases h with
    | raises ht hbad he => exact raises ht hbad he
    | returns hgood he => exact returns hgood he
  · rw [hq] at h
    rw [bind_some hq]
    cases h with
    | raises ht hbad he => exact raises (List.mem_append_left _ ht) hbad he
    | gives hgood =>
      have hnext := hf a s' (by rw [hq])
      show Decides good returned raised _ ((f a).run s')
      generalize (f a).run s' = y at hnext
      generalize g a s' = o at hnext
      cases hnext with
      | raises ht hbad he => exact raises (List.mem_append_right _ ht) hbad he
      | returns hrest he => exact returns (List.forall_mem_append.mpr ⟨hgood, hrest⟩) he
      | gives hrest => exact gives (List.forall_mem_append.mpr ⟨hgood, hrest⟩)

theorem quiet (h : ∀ e, r.run s = .error e → returned e) :
    Decides good returned raised ((Recorder.quiet r : Recorder σ τ α) s) (r.run s) := by
  unfold Recorder.quiet
  cases hr : r.run s with
  | error e => exact returns (List.forall_mem_nil _) (h e hr)
  | ok p => exact gives (List.forall_mem_nil _)

end Decides

end Codec
