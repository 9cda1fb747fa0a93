/-
  Uaii.Lib.Kahn — Kahn's topological sort over any vertex type.

  Edges are a list of pairs, an edge once for every time it was inserted. The loop pops
  the front of the queue, and for every edge out of it decrements the target's
  indegree; a target that reaches zero is pushed.

  Proved, for any listing of the vertices: the popped vertices are distinct
  (`order_nodup`), each comes after all its predecessors (`order_sorted`), and a vertex
  whose predecessors are all popped is popped (`order_closed`). So everything is popped
  exactly when the edges can be ranked (`all_popped_iff`), that is when no vertex follows
  itself (`all_popped_iff_acyclic`).
-/

import Mathlib.Data.Fintype.Card
import Mathlib.Data.List.Dedup
import Mathlib.Data.List.Nodup
import Mathlib.Data.List.Count
import Mathlib.Data.List.Perm.Subperm
import Mathlib.Data.Set.Finite.Basic
import Mathlib.Tactic.SplitIfs

namespace Kahn

variable {V : Type} [DecidableEq V]

structure State (V : Type) where
  queue : List V
  indegree : V → Int
  /-- The popped vertices. -/
  order : List V

/-- Targets of the edges out of `u`. -/
def adj (E : List (V × V)) (u : V) : List V := (E.filter (·.1 = u)).map (·.2)

def indegree (E : List (V × V)) (v : V) : Int := E.countP (·.2 = v)

/-- `if (--indegree[v] == 0) q.push(v);` -/
def relax (s : State V) (v : V) : State V :=
  { s with
    indegree := fun x => if x = v then s.indegree v - 1 else s.indegree x
    queue := if s.indegree v - 1 = 0 then s.queue ++ [v] else s.queue }

/-- `while (!q.empty())`; every vertex is popped at most once, so the fuel of `run` is
    never what stops the loop (`run_queue`). -/
def loop (E : List (V × V)) : Nat → State V → State V
  | 0, s => s
  | fuel + 1, s =>
    match s.queue with
    | [] => s
    | u :: q => loop E fuel ((adj E u).foldl relax { s with queue := q, order := s.order ++ [u] })

def start (vs : List V) (E : List (V × V)) : State V := ⟨vs.filter (indegree E · = 0), indegree E, []⟩

/-- `vs`: the vertices, in the order their zero indegrees are found. -/
def run (vs : List V) (E : List (V × V)) : State V := loop E vs.length (start vs E)

def order (vs : List V) (E : List (V × V)) : List V := (run vs E).order

/-- Nothing follows itself. -/
def Acyclic (r : V → V → Prop) : Prop := ∀ v, ¬ Relation.TransGen r v v

/-! ## Relaxing the edges out of one vertex -/

/-- What the inner loop does: indegrees drop by the number of edges, and exactly the
    targets that reach zero are pushed, once each. -/
theorem foldl_relax : ∀ (ts : List V) (s : State V), (∀ v, (ts.count v : Int) ≤ s.indegree v) →
    ∃ pushed : List V, (ts.foldl relax s).order = s.order ∧ (ts.foldl relax s).queue = s.queue ++ pushed ∧
      (∀ v, (ts.foldl relax s).indegree v = s.indegree v - ts.count v) ∧ pushed.Nodup ∧
      ∀ v, v ∈ pushed ↔ v ∈ ts ∧ s.indegree v = ts.count v := by
  intro ts
  induction ts with
  | nil => intro s _; exact ⟨[], rfl, by simp, by simp, by simp, by simp⟩
  | cons t ts ih =>
    intro s hle
    have hcount : ∀ v, (t :: ts).count v = ts.count v + if v = t then 1 else 0 := by
      intro v
      by_cases e : v = t
      · subst e; simp
      · simp [e, Ne.symm e]
    have ht : (ts.count t : Int) + 1 ≤ s.indegree t := by
      have h := hle t
      rw [hcount] at h
      simpa using h
    have hrest : ∀ v, (ts.count v : Int) ≤ (relax s t).indegree v := by
      intro v
      by_cases e : v = t
      · subst e; simp only [relax, if_true]; omega
      · have h := hle v
        rw [hcount, if_neg e] at h
        simpa [relax, e] using h
    obtain ⟨pushed, hord, hq, hdeg, hnd, hmem⟩ := ih (relax s t) hrest
    have hdeg' : ∀ v, ((t :: ts).foldl relax s).indegree v = s.indegree v - (t :: ts).count v := by
      intro v
      rw [List.foldl_cons, hdeg, hcount]
      by_cases e : v = t
      · subst e; simp only [relax, if_true]; push_cast; omega
      · simp [relax, e]
    by_cases hz : s.indegree t - 1 = 0
    · have hnot : t ∉ ts := List.count_eq_zero.mp (by omega)
      refine ⟨t :: pushed, hord, ?_, hdeg', ?_, ?_⟩
      · rw [List.foldl_cons, hq]; simp [relax, hz]
      · exact List.nodup_cons.mpr ⟨fun h => hnot ((hmem t).mp h).1, hnd⟩
      · intro v
        by_cases e : v = t
        · subst e
          have h0 : ts.count v = 0 := List.count_eq_zero.mpr hnot
          simp [h0]; omega
        · rw [List.mem_cons, hmem, hcount, if_neg e]
          simp [relax, e]
    · refine ⟨pushed, hord, ?_, hdeg', hnd, ?_⟩
      · rw [List.foldl_cons, hq]; simp [relax, hz]
      · intro v
        rw [hmem, hcount]
        by_cases e : v = t
        · subst e
          simp only [relax, if_true, List.mem_cons, true_or, true_and]
          constructor
          · rintro ⟨-, h⟩; push_cast; omega
          · intro h
            push_cast at h
            refine ⟨List.count_pos_iff.mp (by omega), by omega⟩
        · simp [relax, e]

/-! ## The invariant -/

/-- Edges into `v` from vertices not popped yet. -/
def pendingIn (E : List (V × V)) (order : List V) (v : V) : Nat := E.countP fun e => e.2 = v ∧ e.1 ∉ order

structure Inv (vs : List V) (E : List (V × V)) (s : State V) : Prop where
  nodup : (s.order ++ s.queue).Nodup
  mem : ∀ v ∈ s.order ++ s.queue, v ∈ vs
  indegree : ∀ v, s.indegree v = pendingIn E s.order v
  /-- A vertex is queued or popped once nothing before it is left. -/
  ready : ∀ v ∈ vs, v ∈ s.order ++ s.queue ↔ ∀ u, (u, v) ∈ E → u ∈ s.order
  sorted : ∀ pre v post, s.order = pre ++ v :: post → ∀ u, (u, v) ∈ E → u ∈ pre

variable {vs : List V} {E : List (V × V)}

theorem pendingIn_eq_zero {order : List V} {v : V} : pendingIn E order v = 0 ↔ ∀ u, (u, v) ∈ E → u ∈ order := by
  simp only [pendingIn, List.countP_eq_zero, decide_eq_true_eq, not_and, not_not]
  constructor
  · intro h u hu; exact h (u, v) hu rfl
  · rintro h ⟨u, w⟩ he rfl; exact h u he

theorem count_adj (u v : V) : (adj E u).count v = E.countP fun e => e.1 = u ∧ e.2 = v := by
  rw [adj, List.count, List.countP_map, List.countP_filter]
  congr 1
  funext e
  by_cases h1 : e.1 = u <;> by_cases h2 : e.2 = v <;> simp [h1, h2]

theorem mem_adj {u v : V} : v ∈ adj E u ↔ (u, v) ∈ E := by
  simp [adj]

/-- Popping `u` settles the edges out of it. -/
theorem pendingIn_pop {order : List V} {u : V} (hu : u ∉ order) (v : V) :
    pendingIn E order v = pendingIn E (order ++ [u]) v + (adj E u).count v := by
  rw [count_adj]
  induction E with
  | nil => rfl
  | cons e E ih =>
    obtain ⟨a, b⟩ := e
    simp only [pendingIn, List.countP_cons] at ih ⊢
    rw [ih]
    by_cases hau : a = u
    · subst hau
      by_cases hb : b = v
      · simp [hb, hu]; omega
      · simp [hb]
    · by_cases hb : b = v
      · simp [hb, hau]; omega
      · simp [hb]

theorem start_inv (hvs : vs.Nodup) : Inv vs E (start vs E) := by
  have hdeg : ∀ v, Kahn.indegree E v = pendingIn E [] v := by intro v; simp [Kahn.indegree, pendingIn]
  refine ⟨by simpa [start] using hvs.filter _, ?_, hdeg, ?_, ?_⟩
  · intro v hv
    rw [start, List.nil_append] at hv
    exact (List.mem_filter.mp hv).1
  · intro v hv
    show v ∈ [] ++ vs.filter (Kahn.indegree E · = 0) ↔ _
    rw [List.nil_append, List.mem_filter, decide_eq_true_eq, hdeg, Int.natCast_eq_zero, pendingIn_eq_zero]
    exact and_iff_right hv
  · intro pre v post h
    simp [start] at h

/-- One round of the outer loop. -/
theorem pop_inv (hE : ∀ e ∈ E, e.2 ∈ vs) {s : State V} (h : Inv vs E s) {u : V} {q : List V} (hq : s.queue = u :: q) :
    Inv vs E ((adj E u).foldl relax { s with queue := q, order := s.order ++ [u] }) := by
  have hnd := h.nodup
  rw [hq] at hnd
  have hu : u ∉ s.order := fun hu => (List.nodup_append.mp hnd).2.2 u hu u (by simp) rfl
  have hready : ∀ v ∈ vs, v ∈ s.order ++ u :: q ↔ ∀ w, (w, v) ∈ E → w ∈ s.order := hq ▸ h.ready
  have huvs : u ∈ vs := h.mem u (by rw [hq]; simp)
  have hle : ∀ v, ((adj E u).count v : Int) ≤ s.indegree v := by
    intro v
    rw [h.indegree, pendingIn_pop hu]
    omega
  obtain ⟨pushed, hord, hqueue, hdeg, hpnd, hpushed⟩ :=
    foldl_relax (adj E u) { s with queue := q, order := s.order ++ [u] } hle
  have hpush : ∀ v, v ∈ pushed ↔ (u, v) ∈ E ∧ ∀ w, (w, v) ∈ E → w ∈ s.order ++ [u] := by
    intro v
    rw [hpushed, mem_adj, ← pendingIn_eq_zero]
    refine and_congr_right fun _ => ?_
    show s.indegree v = _ ↔ _
    rw [h.indegree, pendingIn_pop hu]
    omega
  constructor
  · rw [hord, hqueue]
    have hsplit : s.order ++ [u] ++ (q ++ pushed) = (s.order ++ u :: q) ++ pushed := by simp
    rw [hsplit, List.nodup_append]
    refine ⟨hnd, hpnd, fun a ha b hb hab => ?_⟩
    subst hab
    obtain ⟨hua, -⟩ := (hpush a).mp hb
    exact hu ((hready a (hE _ hua)).mp ha u hua)
  · intro v hv
    rw [hord, hqueue] at hv
    rcases List.mem_append.mp hv with hv | hv
    · rcases List.mem_append.mp hv with hv | hv
      · exact h.mem v (List.mem_append_left _ hv)
      · rw [List.mem_singleton.mp hv]; exact huvs
    · rcases List.mem_append.mp hv with hv | hv
      · exact h.mem v (List.mem_append_right _ (by rw [hq]; exact List.mem_cons_of_mem _ hv))
      · exact hE _ ((hpush v).mp hv).1
  · intro v
    rw [hdeg, hord]
    show s.indegree v - _ = (pendingIn E (s.order ++ [u]) v : Int)
    rw [h.indegree, pendingIn_pop hu]
    omega
  · intro v hv
    rw [hord, hqueue]
    constructor
    · intro hmem w hw
      have hcase : v ∈ s.order ++ u :: q ∨ v ∈ pushed := by
        simp only [List.mem_append, List.mem_cons, List.not_mem_nil, or_false] at hmem ⊢
        tauto
      rcases hcase with hold | hnew
      · exact List.mem_append_left _ ((hready v hv).mp hold w hw)
      · exact ((hpush v).mp hnew).2 w hw
    · intro hall
      by_cases huv : (u, v) ∈ E
      · exact List.mem_append_right _ (List.mem_append_right _ ((hpush v).mpr ⟨huv, hall⟩))
      · have hold : v ∈ s.order ++ u :: q := by
          refine (hready v hv).mpr fun w hw => ?_
          rcases List.mem_append.mp (hall w hw) with hw' | hw'
          · exact hw'
          · rw [List.mem_singleton.mp hw'] at hw; exact absurd hw huv
        simp only [List.mem_append, List.mem_cons, List.not_mem_nil, or_false] at hold ⊢
        tauto
  · intro pre v post hsplit w hw
    rw [hord] at hsplit
    rcases List.eq_nil_or_concat post with rfl | ⟨post, z, rfl⟩
    · -- `v` is the vertex just popped
      obtain ⟨rfl, hv⟩ := List.append_inj' hsplit rfl
      obtain rfl : u = v := by simpa using hv
      exact (hready u huvs).mp (by simp) w hw
    · rw [List.concat_eq_append, ← List.cons_append, ← List.append_assoc] at hsplit
      exact h.sorted pre v post (List.append_inj' hsplit rfl).1 w hw

/-! ## The whole run -/

theorem loop_inv (hE : ∀ e ∈ E, e.2 ∈ vs) : ∀ (fuel : Nat) (s : State V), Inv vs E s → vs.length ≤ s.order.length + fuel →
    Inv vs E (loop E fuel s) ∧ (loop E fuel s).queue = [] := by
  intro fuel
  induction fuel with
  | zero =>
    intro s h hlen
    refine ⟨h, ?_⟩
    -- every vertex is popped already, and no vertex is queued twice
    have hsub := (List.subperm_of_subset h.nodup h.mem).length_le
    rw [List.length_append] at hsub
    exact List.length_eq_zero_iff.mp (show s.queue.length = 0 by omega)
  | succ fuel ih =>
    intro s h hlen
    unfold loop
    cases hq : s.queue with
    | nil => exact ⟨h, hq⟩
    | cons u q =>
      have hinv := pop_inv hE h hq
      refine ih _ hinv ?_
      have hle : ∀ v, ((adj E u).count v : Int) ≤ s.indegree v := by
        intro v
        have hu : u ∉ s.order := fun hu =>
          (List.nodup_append.mp (hq ▸ h.nodup)).2.2 u hu u (by simp) rfl
        rw [h.indegree, pendingIn_pop hu]
        omega
      obtain ⟨_, hord, -⟩ := foldl_relax (adj E u) { s with queue := q, order := s.order ++ [u] } hle
      rw [hord, List.length_append, List.length_singleton]
      omega

variable (hvs : vs.Nodup) (hE : ∀ e ∈ E, e.2 ∈ vs)

include hvs hE

theorem run_inv : Inv vs E (run vs E) := (loop_inv hE vs.length _ (start_inv hvs) (by simp)).1

theorem run_queue : (run vs E).queue = [] := (loop_inv hE vs.length _ (start_inv hvs) (by simp)).2

theorem order_nodup : (order vs E).Nodup := by
  have h := (run_inv hvs hE).nodup
  rwa [run_queue hvs hE, List.append_nil] at h

theorem order_subset : ∀ v ∈ order vs E, v ∈ vs := fun v hv =>
  (run_inv hvs hE).mem v (List.mem_append_left _ hv)

/-- Every popped vertex comes after all its predecessors. -/
theorem order_sorted {pre post : List V} {v : V} (h : order vs E = pre ++ v :: post) {u : V} (hu : (u, v) ∈ E) :
    u ∈ pre := (run_inv hvs hE).sorted pre v post h u hu

/-- A vertex whose predecessors are all popped is popped. -/
theorem order_closed {v : V} (hv : v ∈ vs) (h : ∀ u, (u, v) ∈ E → u ∈ order vs E) : v ∈ order vs E := by
  have hmem := ((run_inv hvs hE).ready v hv).mpr h
  rwa [run_queue hvs hE, List.append_nil] at hmem

/-- Position in the order. -/
theorem order_rank {u v : V} (hv : v ∈ order vs E) (hu : (u, v) ∈ E) :
    (order vs E).idxOf u < (order vs E).idxOf v := by
  obtain ⟨pre, post, h⟩ := List.append_of_mem hv
  have hmem := order_sorted hvs hE h hu
  have hnd := order_nodup hvs hE
  rw [h] at hnd ⊢
  have hvpre : v ∉ pre := fun hvp => (List.nodup_append.mp hnd).2.2 v hvp v (by simp) rfl
  rw [List.idxOf_append_of_mem hmem, List.idxOf_append_of_notMem hvpre]
  have := List.idxOf_lt_length_of_mem hmem
  omega

theorem length_of_all_popped (hall : ∀ v ∈ vs, v ∈ order vs E) : (order vs E).length = vs.length := by
  have hle := (List.subperm_of_subset hvs hall).length_le
  have hge := (List.subperm_of_subset (order_nodup hvs hE) (order_subset hvs hE)).length_le
  omega

/-- Everything is popped exactly when the edges between the vertices can be ranked. -/
theorem all_popped_iff (hE' : ∀ e ∈ E, e.1 ∈ vs) :
    (order vs E).length = vs.length ↔ ∃ rank : V → Nat, ∀ u v, (u, v) ∈ E → rank u < rank v := by
  have hsub := List.subperm_of_subset (order_nodup hvs hE) (order_subset hvs hE)
  constructor
  · intro hlen
    have hperm := hsub.perm_of_length_le (Nat.le_of_eq hlen.symm)
    refine ⟨(order vs E).idxOf, fun u v huv => order_rank hvs hE ?_ huv⟩
    exact hperm.mem_iff.mpr (hE _ huv)
  · rintro ⟨rank, hrank⟩
    have hall : ∀ n v, v ∈ vs → rank v ≤ n → v ∈ order vs E := by
      intro n
      induction n with
      | zero =>
        intro v hv hn
        exact order_closed hvs hE hv fun u hu => by have := hrank u v hu; omega
      | succ n ih =>
        intro v hv hn
        exact order_closed hvs hE hv fun u hu => ih u (hE' _ hu) (by have := hrank u v hu; omega)
    exact length_of_all_popped hvs hE fun v hv => hall (rank v) v hv (Nat.le_refl _)

omit [DecidableEq V] hvs hE in
/-- Edges that go up in rank have no cycle. -/
theorem acyclic_of_rank {r : V → V → Prop} {rank : V → Nat} (hrank : ∀ u v, r u v → rank u < rank v) : Acyclic r := by
  have hup : ∀ u v, Relation.TransGen r u v → rank u < rank v := by
    intro u v huv
    induction huv with
    | single h => exact hrank _ _ h
    | tail _ h ih => exact Nat.lt_trans ih (hrank _ _ h)
  exact fun v hv => Nat.lt_irrefl _ (hup v v hv)

omit [DecidableEq V] hvs hE in
/-- Between finitely many vertices nothing follows forever without a cycle. -/
theorem acyclic_wf {r : V → V → Prop} (hr : Acyclic r) (vs : List V) :
    WellFounded fun u v : {v // v ∈ vs} => Relation.TransGen r u.1 v.1 := by
  have hfinite : Finite {v // v ∈ vs} := vs.finite_toSet
  have htrans : IsTrans {v // v ∈ vs} fun u v => Relation.TransGen r u.1 v.1 := ⟨fun _ _ _ huv hvw => huv.trans hvw⟩
  have hirrefl : Std.Irrefl fun u v : {v // v ∈ vs} => Relation.TransGen r u.1 v.1 := ⟨fun v hv => hr v.1 hv⟩
  exact Finite.wellFounded_of_trans_of_irrefl _

/-- Everything is popped exactly when the edges between the vertices have no cycle. -/
theorem all_popped_iff_acyclic (hE' : ∀ e ∈ E, e.1 ∈ vs) :
    (order vs E).length = vs.length ↔ Acyclic fun u v => (u, v) ∈ E := by
  constructor
  · intro hlen
    obtain ⟨rank, hrank⟩ := (all_popped_iff hvs hE hE').mp hlen
    exact acyclic_of_rank hrank
  · intro hacyclic
    have hall : ∀ v : {v // v ∈ vs}, v.1 ∈ order vs E := by
      intro v
      induction v using (acyclic_wf hacyclic vs).induction with
      | _ v ih => exact order_closed hvs hE v.2 fun u hu => ih ⟨u, hE' _ hu⟩ (.single hu)
    exact length_of_all_popped hvs hE fun v hv => hall ⟨v, hv⟩

omit hvs hE in
/-- Edges can be ranked exactly when they have no cycle. -/
theorem ranked_iff_acyclic (E : List (V × V)) :
    (∃ rank : V → Nat, ∀ u v, (u, v) ∈ E → rank u < rank v) ↔ Acyclic fun u v => (u, v) ∈ E := by
  let vs := (E.flatMap fun e => [e.1, e.2]).dedup
  have hends : ∀ e ∈ E, e.1 ∈ vs ∧ e.2 ∈ vs := fun e he =>
    ⟨List.mem_dedup.mpr (List.mem_flatMap.mpr ⟨e, he, by simp⟩), List.mem_dedup.mpr (List.mem_flatMap.mpr ⟨e, he, by simp⟩)⟩
  have hnd : vs.Nodup := List.nodup_dedup _
  exact (all_popped_iff hnd (fun e he => (hends e he).2) fun e he => (hends e he).1).symm.trans
    (all_popped_iff_acyclic hnd (fun e he => (hends e he).2) fun e he => (hends e he).1)

end Kahn
