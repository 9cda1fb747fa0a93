/-
  Uaii.Lib.Dataflow — the meaning of a graph of operators over any types of tensors,
  operators and values.

  An operator reads tensors and produces tensors; what an operator computes is a
  parameter (`Interp`). An environment `Solves` a graph when every produced tensor has
  the value its operator gives it and every other tensor the value it started with.

  Proved: a graph whose edges go up in rank has at most one solution (`Solves.unique`),
  and one when no tensor is produced twice (`exists_solves`).
-/

import Uaii.Lib.Lists

namespace Dataflow

structure Op (O T : Type) where
  op : O
  ins : List T
  outs : List T

/-- The value of an operator's `i`-th output. -/
abbrev Interp (O V : Type) := O → List V → Nat → V

variable {O T V : Type}

structure Solves (ops : List (Op O T)) (I : Interp O V) (src env : T → V) : Prop where
  output : ∀ n ∈ ops, ∀ i o, n.outs[i]? = some o → env o = I n.op (n.ins.map env) i
  source : ∀ t, (∀ n ∈ ops, t ∉ n.outs) → env t = src t

def Ranked (ops : List (Op O T)) (rank : T → Nat) : Prop := ∀ n ∈ ops, ∀ x ∈ n.ins, ∀ o ∈ n.outs, rank x < rank o

def SingleProducer (ops : List (Op O T)) : Prop := (ops.flatMap (·.outs)).Nodup

variable {ops : List (Op O T)} {I : Interp O V} {src : T → V} {rank : T → Nat}

theorem Solves.unique (hrank : Ranked ops rank) {env env' : T → V} (h : Solves ops I src env) (h' : Solves ops I src env') :
    env = env' := by
  have hall : ∀ k t, rank t < k → env t = env' t := by
    intro k
    induction k with
    | zero => intro t ht; omega
    | succ k ih =>
      intro t ht
      by_cases hprod : ∃ n ∈ ops, t ∈ n.outs
      · obtain ⟨n, hn, hout⟩ := hprod
        obtain ⟨i, hi⟩ := List.mem_iff_getElem?.mp hout
        have hins : n.ins.map env = n.ins.map env' :=
          List.map_congr_left fun x hx => ih x (by have := hrank n hn x hx t hout; omega)
        rw [h.output n hn i t hi, h'.output n hn i t hi, hins]
      · have hsrc : ∀ n ∈ ops, t ∉ n.outs := fun n hn ht => hprod ⟨n, hn, ht⟩
        rw [h.source t hsrc, h'.source t hsrc]
  funext t
  exact hall (rank t + 1) t (by omega)

/-! ## Evaluation -/

variable [DecidableEq T]

/-- A tensor's value, through at most `fuel` operators. -/
def valueAt (ops : List (Op O T)) (I : Interp O V) (src : T → V) : Nat → T → V
  | 0, t => src t
  | fuel + 1, t =>
    match ops.find? (t ∈ ·.outs) with
    | some n => I n.op (n.ins.map (valueAt ops I src fuel)) (n.outs.idxOf t)
    | none => src t

/-- More fuel than a tensor's rank changes nothing. -/
theorem valueAt_stable (hrank : Ranked ops rank) : ∀ (k k' : Nat) (t : T), rank t < k → rank t < k' →
    valueAt ops I src k t = valueAt ops I src k' t := by
  intro k
  induction k with
  | zero => intro k' t ht; omega
  | succ k ih =>
    intro k' t ht ht'
    cases k' with
    | zero => omega
    | succ k' =>
      unfold valueAt
      cases hfind : ops.find? (t ∈ ·.outs) with
      | none => rfl
      | some n =>
        have hn := List.mem_of_find?_eq_some hfind
        have hout : t ∈ n.outs := by simpa using List.find?_some hfind
        have hins : n.ins.map (valueAt ops I src k) = n.ins.map (valueAt ops I src k') :=
          List.map_congr_left fun x hx => by
            have := hrank n hn x hx t hout
            exact ih k' x (by omega) (by omega)
        simp only [hins]

omit [DecidableEq T] in
theorem nodup_outs (hs : SingleProducer ops) {n : Op O T} (hn : n ∈ ops) : n.outs.Nodup :=
  (List.nodup_flatMap.mp hs).1 n hn

theorem find_producer (hs : SingleProducer ops) {n : Op O T} (hn : n ∈ ops) {t : T} (ht : t ∈ n.outs) :
    ops.find? (t ∈ ·.outs) = some n :=
  Lists.find?_of_disjoint hs hn ht

theorem exists_solves (hrank : Ranked ops rank) (hs : SingleProducer ops) (I : Interp O V) (src : T → V) :
    ∃ env, Solves ops I src env := by
  refine ⟨fun t => valueAt ops I src (rank t + 1) t, ⟨?_, ?_⟩⟩
  · intro n hn i o hi
    have hout : o ∈ n.outs := List.mem_of_getElem? hi
    have hins : n.ins.map (valueAt ops I src (rank o)) = n.ins.map fun t => valueAt ops I src (rank t + 1) t :=
      List.map_congr_left fun x hx => valueAt_stable hrank _ _ x (hrank n hn x hx o hout) (by omega)
    have hidx : n.outs.idxOf o = i := by
      obtain ⟨hlt, rfl⟩ := List.getElem?_eq_some_iff.mp hi
      exact (nodup_outs hs hn).idxOf_getElem i hlt
    show valueAt ops I src (rank o + 1) o = _
    simp only [valueAt, find_producer hs hn hout, hins, hidx]
  · intro t ht
    have hnone : ops.find? (t ∈ ·.outs) = none := List.find?_eq_none.mpr fun n hn => by simpa using ht n hn
    show valueAt ops I src (rank t + 1) t = src t
    simp only [valueAt, hnone]

end Dataflow
