/-
  Uaii.Lib.Storage — a straight-line program of operators over shared cells.

  `exec` runs the operators in order with a variable for every tensor. `Cells.exec` runs
  them with the tensors placed in cells, which several tensors may share; what a tensor
  is read as, and what writing it leaves in its cell, are parameters.

  Proved: in an order that puts producers first `exec` solves the graph (`exec_solves`);
  over cells every live tensor that is intact when it is read has its value
  (`Cells.exec_agrees`), and every tensor that is intact when it is read is read the same
  from a cell of its own (`Cells.exec_whole`).
-/

import Mathlib.Data.List.Induction
import Mathlib.Logic.Function.Basic
import Uaii.Lib.Dataflow

namespace Dataflow

variable {O T V : Type} [DecidableEq T]

/-! ## One variable a tensor -/

def execOp (I : Interp O V) (env : T → V) (n : Op O T) : T → V := fun t =>
  if t ∈ n.outs then I n.op (n.ins.map env) (n.outs.idxOf t) else env t

def exec (I : Interp O V) (ops : List (Op O T)) (env : T → V) : T → V := ops.foldl (execOp I) env

/-- What an operator reads is produced before it, or not at all. -/
def Ordered (ops : List (Op O T)) : Prop :=
  ∀ pre n post, ops = pre ++ n :: post → ∀ x ∈ n.ins, ∀ m ∈ n :: post, x ∉ m.outs

variable {I : Interp O V} {ops : List (Op O T)} {env : T → V}

theorem exec_snoc (pre : List (Op O T)) (n : Op O T) : exec I (pre ++ [n]) env = execOp I (exec I pre env) n := by
  simp [exec]

theorem exec_cons (n : Op O T) (post : List (Op O T)) : exec I (n :: post) env = exec I post (execOp I env n) := rfl

theorem exec_append (pre post : List (Op O T)) : exec I (pre ++ post) env = exec I post (exec I pre env) := by
  simp [exec]

theorem exec_of_not_produced {t : T} : ∀ (ops : List (Op O T)) (env : T → V), (∀ n ∈ ops, t ∉ n.outs) →
    exec I ops env t = env t := by
  intro ops
  induction ops with
  | nil => intro env _; rfl
  | cons n ops ih =>
    intro env h
    rw [exec_cons, ih _ fun m hm => h m (List.mem_cons_of_mem _ hm)]
    exact if_neg (h n List.mem_cons_self)

/-- Run in order, the operators solve the graph from what the variables held before. -/
theorem exec_solves (hord : Ordered ops) (hs : SingleProducer ops) : Solves ops I env (exec I ops env) := by
  refine ⟨?_, fun t ht => exec_of_not_produced ops env ht⟩
  intro n hn i o hi
  obtain ⟨pre, post, rfl⟩ := List.append_of_mem hn
  have hout : o ∈ n.outs := List.mem_of_getElem? hi
  have hpost : ∀ m ∈ post, o ∉ m.outs := by
    intro m hm hmo
    have hdis : (n.outs ++ post.flatMap (·.outs)).Nodup := by
      have hall := hs
      unfold SingleProducer at hall
      rw [List.flatMap_append, List.flatMap_cons] at hall
      exact (List.nodup_append.mp hall).2.1
    exact (List.nodup_append.mp hdis).2.2 o hout o (List.mem_flatMap.mpr ⟨m, hm, hmo⟩) rfl
  have hidx : n.outs.idxOf o = i := by
    obtain ⟨hlt, rfl⟩ := List.getElem?_eq_some_iff.mp hi
    exact (nodup_outs hs hn).idxOf_getElem i hlt
  -- nothing from here on produces what `n` reads
  have hins : n.ins.map (exec I pre env) = n.ins.map (exec I (pre ++ n :: post) env) := by
    refine List.map_congr_left fun x hx => ?_
    rw [exec_append]
    exact (exec_of_not_produced _ _ (hord pre n post rfl x hx)).symm
  rw [← hins, exec_append, exec_cons, exec_of_not_produced post _ hpost, execOp, if_pos hout, hidx]

/-! ## Cells -/

/-- A place for every tensor. -/
structure Cells (T V C S : Type) where
  cell : T → C
  get : T → S → V
  put : T → V → S → S

variable {C S : Type} [DecidableEq C]

namespace Cells

variable (L : Cells T V C S)

def read (mem : C → S) (t : T) : V := L.get t (mem (L.cell t))

def write (mem : C → S) (t : T) (v : V) : C → S := Function.update mem (L.cell t) (L.put t v (mem (L.cell t)))

def store : List (T × V) → (C → S) → C → S
  | [], mem => mem
  | p :: ps, mem => store ps (L.write mem p.1 p.2)

def step (I : Interp O V) (mem : C → S) (n : Op O T) : C → S :=
  L.store (n.outs.zipIdx.map fun p => (p.1, I n.op (n.ins.map (L.read mem)) p.2)) mem

def exec (I : Interp O V) (ops : List (Op O T)) (mem : C → S) : C → S := ops.foldl (L.step I) mem

/-- Every operator that writes another tensor of `x`'s cell is followed by one that writes `x`. -/
def Intact (cell : T → C) (ops : List (Op O T)) (x : T) : Prop :=
  ∀ pre n post, ops = pre ++ n :: post → (∀ o ∈ n.outs, o ≠ x → cell o ≠ cell x) ∨ ∃ m ∈ post, x ∈ m.outs

variable {L}

omit [DecidableEq T] [DecidableEq C] in
theorem Intact.last {cell : T → C} {pre : List (Op O T)} {n : Op O T} {x : T} (h : Intact cell (pre ++ [n]) x) :
    ∀ o ∈ n.outs, o ≠ x → cell o ≠ cell x := by
  rcases h pre n [] rfl with hother | ⟨m, hm, -⟩
  · exact hother
  · cases hm

omit [DecidableEq T] [DecidableEq C] in
theorem Intact.init {cell : T → C} {pre : List (Op O T)} {n : Op O T} {x : T} (h : Intact cell (pre ++ [n]) x)
    (hx : x ∉ n.outs) : Intact cell pre x := by
  intro p m q he
  rcases h p m (q ++ [n]) (by rw [he]; simp) with hother | ⟨m', hm', hout⟩
  · exact Or.inl hother
  · rcases List.mem_append.mp hm' with hq | hn
    · exact Or.inr ⟨m', hq, hout⟩
    · rw [List.mem_singleton.mp hn] at hout
      exact absurd hout hx

omit [DecidableEq T] in
theorem store_other {c : C} : ∀ (ps : List (T × V)) (mem : C → S), (∀ p ∈ ps, L.cell p.1 ≠ c) →
    L.store ps mem c = mem c := by
  intro ps
  induction ps with
  | nil => intro mem _; rfl
  | cons p ps ih =>
    intro mem h
    show L.store ps (L.write mem p.1 p.2) c = mem c
    rw [ih _ fun q hq => h q (List.mem_cons_of_mem _ hq)]
    exact Function.update_of_ne (h p List.mem_cons_self).symm ..

theorem store_self {x : T} {v : V} (hv : ∀ s, L.get x (L.put x v s) = v) : ∀ (ps : List (T × V)) (mem : C → S),
    (x, v) ∈ ps → (∀ p ∈ ps, p.1 = x → p = (x, v)) → (∀ p ∈ ps, p.1 ≠ x → L.cell p.1 ≠ L.cell x) →
      L.read (L.store ps mem) x = v := by
  intro ps
  induction ps with
  | nil => intro mem h; cases h
  | cons p ps ih =>
    intro mem hmem hone hother
    show L.read (L.store ps (L.write mem p.1 p.2)) x = v
    by_cases hin : (x, v) ∈ ps
    · exact ih _ hin (fun q hq => hone q (List.mem_cons_of_mem _ hq)) fun q hq => hother q (List.mem_cons_of_mem _ hq)
    · obtain rfl : (x, v) = p := by
        rcases List.mem_cons.mp hmem with rfl | h
        · rfl
        · exact absurd h hin
      have hrest : ∀ q ∈ ps, L.cell q.1 ≠ L.cell x := by
        intro q hq
        refine hother q (List.mem_cons_of_mem _ hq) fun he => hin ?_
        rw [← hone q (List.mem_cons_of_mem _ hq) he]
        exact hq
      rw [read, store_other ps _ hrest, write, Function.update_self]
      exact hv _

/-- The values an operator stores. -/
def stored (L : Cells T V C S) (I : Interp O V) (mem : C → S) (n : Op O T) : List (T × V) :=
  n.outs.zipIdx.map fun p => (p.1, I n.op (n.ins.map (L.read mem)) p.2)

omit [DecidableEq T] [DecidableEq C] in
theorem mem_stored {mem : C → S} {n : Op O T} {p : T × V} (hp : p ∈ stored L I mem n) :
    ∃ i, n.outs[i]? = some p.1 ∧ p.2 = I n.op (n.ins.map (L.read mem)) i := by
  obtain ⟨⟨o, i⟩, hi, rfl⟩ := List.mem_map.mp hp
  exact ⟨i, List.mem_zipIdx_iff_getElem?.mp hi, rfl⟩

/-- An operator leaves an intact tensor alone, unless it writes it. -/
theorem step_agrees {mem : C → S} {n : Op O T} {x : T} (hnd : n.outs.Nodup)
    (hfits : ∀ vals i, n.outs[i]? = some x → ∀ s, L.get x (L.put x (I n.op vals i) s) = I n.op vals i)
    (hother : ∀ o ∈ n.outs, o ≠ x → L.cell o ≠ L.cell x) :
    L.read (L.step I mem n) x =
      if x ∈ n.outs then I n.op (n.ins.map (L.read mem)) (n.outs.idxOf x) else L.read mem x := by
  by_cases hx : x ∈ n.outs
  · rw [if_pos hx]
    have hget : n.outs[n.outs.idxOf x]? = some x := by
      have hlt := List.idxOf_lt_length_of_mem hx
      rw [List.getElem?_eq_getElem hlt, List.getElem_idxOf hlt]
    refine store_self (hfits _ _ hget) _ _ ?_ (fun p hp he => ?_) fun p hp he => ?_
    · exact List.mem_map.mpr ⟨(x, n.outs.idxOf x), List.mem_zipIdx_iff_getElem?.mpr hget, rfl⟩
    · obtain ⟨i, hi, hv⟩ := mem_stored hp
      rw [he] at hi
      have hidx : n.outs.idxOf x = i := by
        obtain ⟨hlt, hxi⟩ := List.getElem?_eq_some_iff.mp hi
        rw [← hxi]
        exact hnd.idxOf_getElem i hlt
      rw [hidx, ← hv, ← he]
    · obtain ⟨i, hi, -⟩ := mem_stored hp
      exact hother p.1 (List.mem_of_getElem? hi) he
  · rw [if_neg hx]
    show L.get x (L.store (stored L I mem n) mem (L.cell x)) = L.get x (mem (L.cell x))
    rw [store_other]
    intro p hp
    obtain ⟨i, hi, -⟩ := mem_stored hp
    have hmem := List.mem_of_getElem? hi
    exact hother p.1 hmem fun he => hx (he ▸ hmem)

omit [DecidableEq T] in
theorem exec_snoc {mem : C → S} (pre : List (Op O T)) (n : Op O T) :
    L.exec I (pre ++ [n]) mem = L.step I (L.exec I pre mem) n := by
  simp [Cells.exec]

omit [DecidableEq T] in
theorem exec_congr {J : Interp O V} : ∀ (ops : List (Op O T)) (mem : C → S), (∀ n ∈ ops, ∀ vals i, I n.op vals i = J n.op vals i) →
    L.exec I ops mem = L.exec J ops mem := by
  intro ops
  induction ops with
  | nil => intro mem _; rfl
  | cons n ops ih =>
    intro mem h
    have hstep : L.step I mem n = L.step J mem n := by
      unfold step
      simp only [h n List.mem_cons_self]
    show L.exec I ops (L.step I mem n) = L.exec J ops (L.step J mem n)
    rw [hstep]
    exact ih _ fun m hm => h m (List.mem_cons_of_mem _ hm)

/-- Cells and variables agree on every live tensor that is intact, when the operators
    that write live tensors read only such. `Init`: the tensors that agree before. -/
theorem exec_agrees {J : Interp O V} {mem : C → S} {Live Init : T → Prop} (hnd : ∀ n ∈ ops, n.outs.Nodup)
    (hfits : ∀ n ∈ ops, ∀ vals i o, n.outs[i]? = some o → ∀ s, L.get o (L.put o (I n.op vals i) s) = I n.op vals i)
    (hinit : ∀ x, Live x → Init x → L.read mem x = env x)
    (hread : ∀ pre n post, ops = pre ++ n :: post → (∃ o ∈ n.outs, Live o) → (∀ vals i, I n.op vals i = J n.op vals i) ∧
      ∀ x ∈ n.ins, Live x ∧ Intact L.cell pre x ∧ (Init x ∨ ∃ m ∈ pre, x ∈ m.outs)) :
    ∀ x, Live x → Intact L.cell ops x → (Init x ∨ ∃ m ∈ ops, x ∈ m.outs) →
      L.read (L.exec I ops mem) x = Dataflow.exec J ops env x := by
  -- over the prefixes of the program
  have hall : ∀ post pre, ops = pre ++ post → ∀ x, Live x → Intact L.cell pre x → (Init x ∨ ∃ m ∈ pre, x ∈ m.outs) →
      L.read (L.exec I pre mem) x = Dataflow.exec J pre env x := by
    intro post pre
    induction pre using List.reverseRecOn generalizing post with
    | nil =>
      intro _ x hx _ hor
      rcases hor with hi | ⟨m, hm, -⟩
      · exact hinit x hx hi
      · cases hm
    | append_singleton pre n ih =>
      intro hops x hx hintact hor
      have hsplit : ops = pre ++ n :: post := by simpa using hops
      have hn : n ∈ ops := by rw [hsplit]; simp
      have hih := ih (n :: post) hsplit
      rw [exec_snoc, Dataflow.exec_snoc, execOp,
        step_agrees (hnd n hn) (fun vals i hi => hfits n hn vals i x hi) hintact.last]
      by_cases hout : x ∈ n.outs
      · obtain ⟨hIJ, hins⟩ := hread pre n post hsplit ⟨x, hout, hx⟩
        have hvals : n.ins.map (L.read (L.exec I pre mem)) = n.ins.map (Dataflow.exec J pre env) :=
          List.map_congr_left fun y hy => by
            obtain ⟨hy₁, hy₂, hy₃⟩ := hins y hy
            exact hih y hy₁ hy₂ hy₃
        rw [if_pos hout, if_pos hout, hvals, hIJ]
      · rw [if_neg hout, if_neg hout]
        refine hih x hx (hintact.init hout) ?_
        rcases hor with hi | ⟨m, hm, hmo⟩
        · exact Or.inl hi
        · rcases List.mem_append.mp hm with hm | hm
          · exact Or.inr ⟨m, hm, hmo⟩
          · rw [List.mem_singleton.mp hm] at hmo
            exact absurd hmo hout
  exact hall [] ops (by simp)

/-! ## One value a cell -/

/-- A cell holds the value last written to it, whichever tensor it was written for. -/
def whole (cell : T → C) : Cells T V C V := ⟨cell, fun _ v => v, fun _ v _ => v⟩

omit [DecidableEq T] in
/-- Storing a list leaves the same value for `x` in both places, when no other tensor of
    the list has its cell and both held the same, or the list writes it. -/
theorem store_whole [DecidableEq T] {cell : T → C} {x : T} : ∀ (ps : List (T × V)) (mem : C → V) (env : T → V),
    (∀ p ∈ ps, p.1 ≠ x → cell p.1 ≠ cell x) → (mem (cell x) = env x ∨ ∃ p ∈ ps, p.1 = x) →
      (whole cell).store ps mem (cell x) = (whole id).store ps env x := by
  intro ps
  induction ps with
  | nil =>
    intro mem env _ hor
    rcases hor with he | ⟨p, hp, -⟩
    · exact he
    · cases hp
  | cons p ps ih =>
    intro mem env hother hor
    refine ih ((whole cell).write mem p.1 p.2) ((whole id).write env p.1 p.2)
      (fun q hq => hother q (List.mem_cons_of_mem _ hq)) ?_
    by_cases hpx : p.1 = x
    · left
      show Function.update mem (cell p.1) p.2 (cell x) = Function.update env p.1 p.2 x
      rw [hpx, Function.update_self, Function.update_self]
    · rcases hor with he | ⟨q, hq, hqx⟩
      · left
        show Function.update mem (cell p.1) p.2 (cell x) = Function.update env p.1 p.2 x
        rw [Function.update_of_ne (hother p List.mem_cons_self hpx).symm, Function.update_of_ne (Ne.symm hpx)]
        exact he
      · rcases List.mem_cons.mp hq with rfl | hq
        · exact absurd hqx hpx
        · exact Or.inr ⟨q, hq, hqx⟩

/-- Two placements of the same program agree on every tensor that is intact in the shared
    one, when what the operators read is. `Init`: the tensors that agree before. -/
theorem exec_whole {cell : T → C} {mem : C → V} {Init : T → Prop} (hinit : ∀ x, Init x → mem (cell x) = env x)
    (hread : ∀ pre n post, ops = pre ++ n :: post → ∀ x ∈ n.ins, Intact cell pre x ∧ (Init x ∨ ∃ m ∈ pre, x ∈ m.outs)) :
    ∀ pre post, ops = pre ++ post → ∀ x, Intact cell pre x → (Init x ∨ ∃ m ∈ pre, x ∈ m.outs) →
      (whole cell).exec I pre mem (cell x) = (whole id).exec I pre env x := by
  intro pre
  induction pre using List.reverseRecOn with
  | nil =>
    intro post _ x _ hor
    rcases hor with hi | ⟨m, hm, -⟩
    · exact hinit x hi
    · cases hm
  | append_singleton pre n ih =>
    intro post hops x hintact hor
    have hsplit : ops = pre ++ n :: post := by simpa using hops
    have hvals : n.ins.map ((whole cell).read ((whole cell).exec I pre mem)) =
        n.ins.map ((whole id).read ((whole id).exec I pre env)) := by
      refine List.map_congr_left fun y hy => ?_
      obtain ⟨hy₁, hy₂⟩ := hread pre n post hsplit y hy
      exact ih (n :: post) hsplit y hy₁ hy₂
    have hstep : ∀ p ∈ n.outs.zipIdx.map fun p => (p.1, I n.op (n.ins.map ((whole cell).read ((whole cell).exec I pre mem))) p.2),
        p.1 ≠ x → cell p.1 ≠ cell x := by
      intro p hp hne
      obtain ⟨i, hi, -⟩ := mem_stored (L := whole cell) hp
      exact hintact.last p.1 (List.mem_of_getElem? hi) hne
    rw [exec_snoc, exec_snoc, step, step, ← hvals]
    refine store_whole _ _ _ hstep ?_
    by_cases hout : x ∈ n.outs
    · right
      obtain ⟨i, hi⟩ := List.mem_iff_getElem?.mp hout
      exact ⟨_, List.mem_map.mpr ⟨(x, i), List.mem_zipIdx_iff_getElem?.mpr hi, rfl⟩, rfl⟩
    · left
      refine ih (n :: post) hsplit x (hintact.init hout) ?_
      rcases hor with hi | ⟨m, hm, hmo⟩
      · exact Or.inl hi
      · rcases List.mem_append.mp hm with hm | hm
        · exact Or.inr ⟨m, hm, hmo⟩
        · rw [List.mem_singleton.mp hm] at hmo
          exact absurd hmo hout

end Cells

end Dataflow
