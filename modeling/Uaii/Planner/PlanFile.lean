/-
  Uaii.Planner.PlanFile — `write_plan`, `read_plan` and the `PlanCache` on disk
  (`libs/uaii-planner/src/cache.cpp`).

  A plan is written line by line, names as they are, and read back with `getline` and
  `>>`. The cache directory keeps what was written to it. A count for which `reserve` or
  `resize` finds no memory reads as no plan.

  Proved: a plan that was built is read back, and is what any later `get` of its key
  answers with, exactly when no name in its graph holds a line break (`plan_file_iff`).

  As built, names are not escaped: the text of one plan can be the text of another, with
  the rest of it left over (`crafted_name_read`).
-/

import Uaii.Ir.Json
import Uaii.Lib.TextStream
import Uaii.Planner.PlanCache

namespace Uaii.Planner

open Codec TextStream
open Uaii.Ir
open Uaii.Ir.Json (isSpace)

/-! ## What is written -/

/-- A planned operator with its `preferred_device` and `selected_kernel`. -/
structure OpRecord extends PlannedOp where
  preferredDevice : Int
  selectedKernel : String
  deriving DecidableEq, Repr

structure PlanRecord where
  irVersion : IrVersion
  graphName : String
  ops : List OpRecord
  memoryHints : List MemoryPlanHint
  graphInputs : List TensorId
  graphOutputs : List TensorId
  deriving DecidableEq, Repr

/-- `DeviceType::Cpu`. -/
def cpu : Int := 1

/-- The plan as `build_execution_plan` leaves it. -/
def recordOf (p : ExecutionPlan) : PlanRecord :=
  ⟨p.irVersion, p.graphName, p.ops.map fun op => ⟨op, cpu, ""⟩, p.memoryHints, p.graphInputs, p.graphOutputs⟩

def writeIdList (ids : List Nat) : List Char := line (decimal ids.length ++ ids.flatMap fun id => ' ' :: decimal id)

def writeOp (op : OpRecord) : List Char :=
  line (decimal op.nodeId) ++ (line op.nodeName.toList ++ (line op.opName.toList ++ (line op.opVersion.toList ++
    (line (integer op.preferredDevice) ++ (line op.selectedKernel.toList ++
      (writeIdList op.dependencies ++ (writeIdList op.inputs ++ writeIdList op.outputs)))))))

def writeFlag (b : Bool) : List Char := integer (if b then 1 else 0)

def writeHint (h : MemoryPlanHint) : List Char :=
  line (decimal h.tensorId) ++ (line h.name.toList ++ (line (decimal h.estimatedBytes) ++
    line (writeFlag h.isGraphInput ++ ' ' :: (writeFlag h.isGraphOutput ++ ' ' :: writeFlag h.isWeight))))

def writePlan (p : PlanRecord) : List Char :=
  line "UAIIPLAN1".toList ++ (line p.graphName.toList ++
    (line (decimal p.irVersion.major ++ ' ' :: decimal p.irVersion.minor) ++
      (line (decimal p.ops.length) ++ (p.ops.flatMap writeOp ++
        (line (decimal p.memoryHints.length) ++ (p.memoryHints.flatMap writeHint ++
          (writeIdList p.graphInputs ++ writeIdList p.graphOutputs)))))))

/-! ## What is read -/

def readNumber (w : Nat) : Stream Nat := unsigned isSpace w

/-- `in >> n` into an `int`. -/
def readInt : Stream Int := signed isSpace 32

def readName : Stream String := do
  let cs ← getline
  pure (.ofList cs)

/-- The numbers of one line, which may hold more. -/
def idList : Stream (List Nat) := do
  let n ← readNumber 64
  many (readNumber 64) n

def readIdList : Stream (List Nat) := do
  let cs ← getline
  match idList cs with
  | .ok (ids, _) => pure ids
  | .error e => throw e

def readOp : Stream OpRecord := do
  let nodeId ← readNumber 64
  get
  let nodeName ← readName
  let opName ← readName
  let opVersion ← readName
  let device ← readInt
  get
  let selectedKernel ← readName
  let dependencies ← readIdList
  let inputs ← readIdList
  let outputs ← readIdList
  pure ⟨⟨nodeId, nodeName, opName, opVersion, dependencies, inputs, outputs⟩, device, selectedKernel⟩

def readHint : Stream MemoryPlanHint := do
  let tensorId ← readNumber 64
  get
  let hintName ← readName
  let estimatedBytes ← readNumber 64
  let a ← readInt
  let b ← readInt
  let c ← readInt
  get
  pure ⟨tensorId, hintName, estimatedBytes, a != 0, b != 0, c != 0⟩

def readPlan : Stream PlanRecord := do
  let magic ← getline
  if magic ≠ "UAIIPLAN1".toList then throw () else
    let graphName ← readName
    let major ← readNumber 32
    let minor ← readNumber 32
    let nops ← readNumber 64
    get
    let ops ← many readOp nops
    let nh ← readNumber 64
    get
    let hints ← many readHint nh
    let graphInputs ← readIdList
    let graphOutputs ← readIdList
    pure ⟨⟨major, minor⟩, graphName, ops, hints, graphInputs, graphOutputs⟩

/-- `read_plan` of a file's text. -/
def planOf (text : List Char) : Option PlanRecord := (readPlan text).toOption.map (·.1)

/-! ## `PlanCache` -/

structure DiskCache where
  /-- `entries_`. -/
  entries : String → Option PlanRecord
  /-- The text of `key.plan`, in the cache directory. -/
  files : String → Option (List Char)

namespace DiskCache

def get (c : DiskCache) (key : String) : Option PlanRecord × DiskCache :=
  match c.entries key with
  | some p => (some p, c)
  | none =>
    match (c.files key).bind planOf with
    | none => (none, c)
    | some p => (some p, { c with entries := Function.update c.entries key (some p) })

def put (c : DiskCache) (key : String) (p : PlanRecord) : DiskCache :=
  ⟨Function.update c.entries key (some p), Function.update c.files key (some (writePlan p))⟩

/-- `clear`; a new process finds the same. -/
def clear (c : DiskCache) : DiskCache := { c with entries := fun _ => none }

end DiskCache

/-- What can become of the cache after `put(key, p)`, until the key's next `put`. -/
inductive Since (key : String) (p : PlanRecord) : DiskCache → Prop
  | put (c : DiskCache) : Since key p (c.put key p)
  | get {c : DiskCache} (k : String) : Since key p c → Since key p (c.get k).2
  | clear {c : DiskCache} : Since key p c → Since key p c.clear
  | other {c : DiskCache} {k : String} (q : PlanRecord) : k ≠ key → Since key p c → Since key p (c.put k q)

/-- The file holds the plan, and `get` never answers with another. -/
structure Kept (p : PlanRecord) : Prop where
  reads_back : planOf (writePlan p) = some p
  never_other : ∀ key c, Since key p c → ∀ q, (c.get key).1 = some q → q = p

/-! ## Reading back -/

/-- What a `vector<uint64_t>` holds. -/
def IdsFit (ids : List Nat) : Prop := ids.length < 2 ^ 64 ∧ ∀ id ∈ ids, id < 2 ^ 64

/-- What the fields' types hold. -/
structure OpRecord.Words (op : OpRecord) : Prop where
  node_id : op.nodeId < 2 ^ 64
  device : -2 ^ 31 ≤ op.preferredDevice ∧ op.preferredDevice < 2 ^ 31
  dependencies : IdsFit op.dependencies
  inputs : IdsFit op.inputs
  outputs : IdsFit op.outputs

structure PlanRecord.Words (p : PlanRecord) : Prop where
  version : p.irVersion.major < 2 ^ 32 ∧ p.irVersion.minor < 2 ^ 32
  ops : p.ops.length < 2 ^ 64 ∧ ∀ op ∈ p.ops, op.Words
  hints : p.memoryHints.length < 2 ^ 64 ∧ ∀ h ∈ p.memoryHints, h.tensorId < 2 ^ 64 ∧ h.estimatedBytes < 2 ^ 64
  inputs : IdsFit p.graphInputs
  outputs : IdsFit p.graphOutputs

/-- One line. -/
def OneLine (s : String) : Prop := '\n' ∉ s.toList

structure OpRecord.Unbroken (op : OpRecord) : Prop where
  node_name : OneLine op.nodeName
  op_name : OneLine op.opName
  op_version : OneLine op.opVersion
  kernel : OneLine op.selectedKernel

structure PlanRecord.Unbroken (p : PlanRecord) : Prop where
  graph_name : OneLine p.graphName
  ops : ∀ op ∈ p.ops, op.Unbroken
  hints : ∀ h ∈ p.memoryHints, OneLine h.name

theorem spaces : Spaces isSpace := by
  intro c hc
  have hsp : c = ' ' ∨ (9 ≤ c.toNat ∧ c.toNat ≤ 13) := by simpa [isSpace] using hc
  refine ⟨?_, ?_, ?_⟩
  · rcases hsp with rfl | ⟨-, hle⟩
    · rfl
    · have hlt : c.toNat < '0'.toNat := Nat.lt_of_le_of_lt hle (by decide)
      by_contra hd
      have hd' : c.isDigit = true := by simpa using hd
      simp only [Char.isDigit, Bool.and_eq_true, decide_eq_true_eq] at hd'
      have hge : '0'.toNat ≤ c.toNat := hd'.1
      omega
  · rintro rfl
    revert hc
    decide
  · rintro rfl
    revert hc
    decide

theorem readName_line {s : String} (h : OneLine s) : Reads readName (line s.toList) s := by
  have hline : Reads (getline >>= fun cs => pure (String.ofList cs)) (line s.toList ++ []) s :=
    Reads.line h (by simpa using Reads.pure s)
  rwa [List.append_nil] at hline

theorem decimal_no_newline (n : Nat) : '\n' ∉ decimal n := by
  intro hmem
  have hd := Decimal.toDigits_isDigit hmem
  revert hd
  decide

theorem idList_run {ids : List Nat} (h : IdsFit ids) :
    idList (decimal ids.length ++ ids.flatMap fun id => ' ' :: decimal id) = .ok (ids, []) := by
  have hrest : Ends Char.isDigit (ids.flatMap fun id => ' ' :: decimal id) := by
    cases ids with
    | nil => exact fun c hc => by cases hc
    | cons id ids => exact ends_cons rfl _
  have hcount : readNumber 64 (decimal ids.length ++ ids.flatMap fun id => ' ' :: decimal id) = .ok (ids.length, _) :=
    unsigned_run spaces no_space h.1 hrest
  show (readNumber 64 >>= fun n => many (readNumber 64) n).run _ = _
  rw [StateT.run_bind, show (readNumber 64).run _ = _ from hcount]
  exact numbers_run spaces rfl h.2

theorem readIdList_reads {ids : List Nat} (h : IdsFit ids) :
    Reads readIdList (writeIdList ids) ids := by
  have hline : '\n' ∉ decimal ids.length ++ ids.flatMap fun id => ' ' :: decimal id := by
    intro hmem
    rcases List.mem_append.mp hmem with hmem | hmem
    · exact decimal_no_newline _ hmem
    · obtain ⟨id, -, hmem⟩ := List.mem_flatMap.mp hmem
      rcases List.mem_cons.mp hmem with hc | hmem
      · revert hc
        decide
      · exact decimal_no_newline _ hmem
  have hreads := Reads.line (t := []) (y := ids) (f := fun cs => match idList cs with
    | .ok (ids, _) => pure ids
    | .error e => throw e) hline (by
      rw [idList_run h]
      exact Reads.pure ids)
  rwa [List.append_nil] at hreads

theorem readOp_reads {op : OpRecord} (hw : op.Words) (hu : op.Unbroken) : Reads readOp (writeOp op) op := by
  have htext : writeOp op = decimal op.nodeId ++ '\n' :: (line op.nodeName.toList ++ (line op.opName.toList ++
      (line op.opVersion.toList ++ (integer op.preferredDevice ++ '\n' :: (line op.selectedKernel.toList ++
        (writeIdList op.dependencies ++ (writeIdList op.inputs ++ writeIdList op.outputs))))))) := by
    simp [writeOp, line]
  rw [htext]
  refine Reads.unsigned spaces hw.node_id rfl (Reads.get _ ?_)
  refine (readName_line hu.node_name).bind ((readName_line hu.op_name).bind ((readName_line hu.op_version).bind ?_))
  refine Reads.signed spaces hw.device.1 hw.device.2 rfl (Reads.get _ ?_)
  refine (readName_line hu.kernel).bind ((readIdList_reads hw.dependencies).bind ((readIdList_reads hw.inputs).bind ?_))
  exact (readIdList_reads hw.outputs).ret rfl

theorem writeFlag_ne (b : Bool) : ((if b then 1 else 0 : Int) != 0) = b := by
  cases b <;> rfl

theorem readHint_reads {h : MemoryPlanHint} (hid : h.tensorId < 2 ^ 64) (hbytes : h.estimatedBytes < 2 ^ 64)
    (hname : OneLine h.name) : Reads readHint (writeHint h) h := by
  have htext : writeHint h = decimal h.tensorId ++ '\n' :: (line h.name.toList ++ (decimal h.estimatedBytes ++
      '\n' :: (writeFlag h.isGraphInput ++ ' ' :: (writeFlag h.isGraphOutput ++ ' ' :: (writeFlag h.isWeight ++ ['\n']))))) := by
    simp [writeHint, line]
  have hflag : ∀ b : Bool, -2 ^ 31 ≤ (if b then 1 else 0 : Int) ∧ (if b then 1 else 0 : Int) < 2 ^ 31 := by decide
  rw [htext]
  refine Reads.unsigned spaces hid rfl (Reads.get _ ((readName_line hname).bind ?_))
  refine Reads.unsigned spaces hbytes rfl ?_
  refine Reads.signed_space spaces rfl (hflag _).1 (hflag _).2 rfl ?_
  refine Reads.signed_space spaces rfl (hflag _).1 (hflag _).2 rfl ?_
  refine Reads.signed_space spaces rfl (hflag _).1 (hflag _).2 rfl (Reads.get _ ?_)
  rw [writeFlag_ne, writeFlag_ne, writeFlag_ne]
  exact Reads.pure h

theorem readPlan_reads {p : PlanRecord} (hw : p.Words) (hu : p.Unbroken) : Reads readPlan (writePlan p) p := by
  have htext : writePlan p = line "UAIIPLAN1".toList ++ (line p.graphName.toList ++ (decimal p.irVersion.major ++
      ' ' :: (decimal p.irVersion.minor ++ '\n' :: (decimal p.ops.length ++ '\n' :: (p.ops.flatMap writeOp ++
        (decimal p.memoryHints.length ++ '\n' :: (p.memoryHints.flatMap writeHint ++
          (writeIdList p.graphInputs ++ writeIdList p.graphOutputs)))))))) := by
    simp [writePlan, line]
  have hops : Reads (many readOp p.ops.length) (p.ops.flatMap writeOp) p.ops := by
    simpa using Reads.many (f := id) fun op hop => readOp_reads (hw.ops.2 op hop) (hu.ops op hop)
  have hhints : Reads (many readHint p.memoryHints.length) (p.memoryHints.flatMap writeHint) p.memoryHints := by
    simpa using Reads.many (f := id) fun h hh => readHint_reads (hw.hints.2 h hh).1 (hw.hints.2 h hh).2 (hu.hints h hh)
  rw [htext]
  refine Reads.line (by decide) ((readName_line hu.graph_name).bind ?_)
  refine Reads.unsigned spaces hw.version.1 rfl (Reads.unsigned_space spaces rfl hw.version.2 rfl ?_)
  refine Reads.unsigned_space spaces rfl hw.ops.1 rfl (Reads.get _ (hops.bind ?_))
  refine Reads.unsigned spaces hw.hints.1 rfl (Reads.get _ (hhints.bind ?_))
  exact (readIdList_reads hw.inputs).bind ((readIdList_reads hw.outputs).ret rfl)

/-! ## Names that are read are single lines -/

theorem readName_gives : Gives readName OneLine := by
  refine Gives.bind (P := fun cs => '\n' ∉ cs) (fun s cs rest h => getline_no_newline h) fun cs hcs => Gives.pure ?_
  simpa [OneLine] using hcs

theorem readOp_gives : Gives readOp OpRecord.Unbroken := by
  refine (Gives.any _).bind fun nodeId _ => (Gives.any _).bind fun _ _ => ?_
  refine readName_gives.bind fun nodeName hnode => readName_gives.bind fun opName hop => readName_gives.bind fun version hv => ?_
  refine (Gives.any _).bind fun device _ => (Gives.any _).bind fun _ _ => readName_gives.bind fun kernel hk => ?_
  refine (Gives.any _).bind fun deps _ => (Gives.any _).bind fun inputs _ => (Gives.any _).bind fun outputs _ => ?_
  exact Gives.pure ⟨hnode, hop, hv, hk⟩

theorem readHint_gives : Gives readHint fun h => OneLine h.name := by
  refine (Gives.any _).bind fun id _ => (Gives.any _).bind fun _ _ => readName_gives.bind fun name hname => ?_
  refine (Gives.any _).bind fun bytes _ => (Gives.any _).bind fun a _ => (Gives.any _).bind fun b _ => ?_
  exact (Gives.any _).bind fun c _ => (Gives.any _).bind fun _ _ => Gives.pure hname

theorem readPlan_gives : Gives readPlan PlanRecord.Unbroken := by
  refine (Gives.any _).bind fun magic _ => ?_
  split
  · exact Gives.throw ()
  refine readName_gives.bind fun name hname => (Gives.any _).bind fun major _ => (Gives.any _).bind fun minor _ => ?_
  refine (Gives.any _).bind fun nops _ => (Gives.any _).bind fun _ _ => (readOp_gives.many nops).bind fun ops hops => ?_
  refine (Gives.any _).bind fun nh _ => (Gives.any _).bind fun _ _ => (readHint_gives.many nh).bind fun hints hhints => ?_
  refine (Gives.any _).bind fun inputs _ => (Gives.any _).bind fun outputs _ => Gives.pure ?_
  exact ⟨hname, hops, hhints⟩

/-- A plan is read back exactly when its names are single lines. -/
theorem planOf_writePlan_iff {p : PlanRecord} (hw : p.Words) : planOf (writePlan p) = some p ↔ p.Unbroken := by
  constructor
  · intro hp
    unfold planOf at hp
    cases hr : readPlan (writePlan p) with
    | error e => rw [hr] at hp; cases hp
    | ok r =>
      rw [hr] at hp
      obtain rfl : r.1 = p := Option.some.inj hp
      exact readPlan_gives _ _ r.2 hr
  · intro hu
    have hrun := (readPlan_reads hw hu).run
    unfold planOf
    rw [show readPlan (writePlan p) = _ from hrun]
    rfl

/-! ## The cache -/

/-- The key's entry and file hold the plan, or nothing. -/
structure KeyHolds (key : String) (p : PlanRecord) (c : DiskCache) : Prop where
  entry : c.entries key = none ∨ c.entries key = some p
  file : c.files key = some (writePlan p)

namespace DiskCache

variable {key : String} {p : PlanRecord} {c : DiskCache}

/-- What `get` answers, and the entry it leaves. -/
theorem get_spec (c : DiskCache) (key : String) : (c.get key).2.files = c.files ∧
    (∀ k, k ≠ key → (c.get key).2.entries k = c.entries k) ∧
      (c.get key).2.entries key = (c.get key).1 ∧
        (c.get key).1 = (c.entries key).or ((c.files key).bind planOf) := by
  unfold get
  cases he : c.entries key with
  | some q => exact ⟨rfl, fun _ _ => rfl, he, rfl⟩
  | none =>
    cases hf : (c.files key).bind planOf with
    | none => exact ⟨rfl, fun _ _ => rfl, he, rfl⟩
    | some q => exact ⟨rfl, fun k hk => Function.update_of_ne hk _ _, Function.update_self _ _ _, rfl⟩

end DiskCache

section Run

variable {key : String} {p : PlanRecord} {c : DiskCache}

theorem KeyHolds.get_eq (h : KeyHolds key p c) (hp : planOf (writePlan p) = some p) : (c.get key).1 = some p := by
  obtain ⟨-, -, -, hans⟩ := c.get_spec key
  rw [hans, h.file]
  rcases h.entry with he | he
  · rw [he]
    exact hp
  · rw [he]
    rfl

theorem Since.holds (h : Since key p c) (hp : planOf (writePlan p) = some p) : KeyHolds key p c := by
  induction h with
  | put c => exact ⟨.inr (Function.update_self _ _ _), Function.update_self _ _ _⟩
  | @get c k _ ih =>
    obtain ⟨hfiles, hother, hentry, -⟩ := c.get_spec k
    refine ⟨?_, hfiles ▸ ih.file⟩
    by_cases hk : key = k
    · subst hk
      exact .inr (hentry.trans (ih.get_eq hp))
    · rw [hother key hk]
      exact ih.entry
  | clear _ ih => exact ⟨.inl rfl, ih.file⟩
  | @other c k q hk _ ih =>
    have hentry : (c.put k q).entries key = c.entries key := Function.update_of_ne (Ne.symm hk) _ _
    have hfile : (c.put k q).files key = c.files key := Function.update_of_ne (Ne.symm hk) _ _
    exact ⟨hentry ▸ ih.entry, hfile ▸ ih.file⟩

theorem kept_iff (hw : p.Words) : Kept p ↔ p.Unbroken := by
  rw [← planOf_writePlan_iff hw]
  refine ⟨fun h => h.reads_back, fun hp => ⟨hp, fun key c hs q hq => ?_⟩⟩
  have hget := (hs.holds hp).get_eq hp
  exact Option.some.inj (hq.symm.trans hget)

end Run

/-! ## Plans that are built -/

variable {R : Type}

/-- What the fields' types hold, of a graph. -/
structure GraphWords (g : Graph R) : Prop where
  version : g.version.major < 2 ^ 32 ∧ g.version.minor < 2 ^ 32
  nodes : g.nodes.length < 2 ^ 64 ∧ ∀ n ∈ g.nodes, n.id < 2 ^ 64 ∧ IdsFit n.inputs ∧ IdsFit n.outputs
  tensors : g.tensors.length < 2 ^ 64 ∧ ∀ t ∈ g.tensors, t.id < 2 ^ 64
  inputs : IdsFit g.inputs
  outputs : IdsFit g.outputs

/-- No name in the graph holds a line break. -/
structure LineNames (g : Graph R) : Prop where
  graph : OneLine g.name
  nodes : ∀ n ∈ g.nodes, OneLine n.name ∧ OneLine n.opName ∧ OneLine n.opVersion
  tensors : ∀ t ∈ g.tensors, OneLine t.name

section Built

variable {h : HashOrder} {g : Graph R} {p : ExecutionPlan}

theorem estimateTensorBytes_lt (t : Tensor) : estimateTensorBytes t < 2 ^ 64 := by
  unfold estimateTensorBytes
  dsimp only
  split
  · decide
  · exact Nat.mod_lt _ (by decide)

theorem planDeps_fit (hg : GraphWords g) (hids : (g.nodes.map (·.id)).Nodup) {n : Node R} (hn : n ∈ g.nodes) :
    IdsFit (planDeps h g n.id) := by
  have hperm := planDeps_perm (h := h) hids hn
  have hcount : (uniqueDeps g n).length ≤ n.inputs.length :=
    ((List.dedup_sublist _).length_le).trans (List.length_filterMap_le _ _)
  have hfit := (hg.nodes.2 n hn).2.1.1
  refine ⟨by rw [hperm.length_eq]; omega, fun id hid => ?_⟩
  obtain ⟨-, x, -, hlast⟩ := mem_uniqueDeps.mp (hperm.mem_iff.mp hid)
  obtain ⟨m, hfind, rfl⟩ := Option.map_eq_some_iff.mp hlast
  exact (hg.nodes.2 m (List.mem_reverse.mp (List.mem_of_find?_eq_some hfind))).1

theorem built_words (hg : GraphWords g) (hb : buildExecutionPlan h g = .ok p) : (recordOf p).Words := by
  obtain ⟨hids, order, hperm, -, rfl⟩ := buildExecutionPlan_nodes hb
  refine ⟨hg.version, ⟨?_, fun op hop => ?_⟩, ⟨?_, fun hint hh => ?_⟩, hg.inputs, hg.outputs⟩
  · simpa [recordOf, hperm.length_eq] using hg.nodes.1
  · simp only [recordOf, List.mem_map] at hop
    obtain ⟨op', ⟨n, hn, rfl⟩, rfl⟩ := hop
    have hmem := hperm.mem_iff.mp hn
    obtain ⟨hid, hin, hout⟩ := hg.nodes.2 n hmem
    have hcpu : -2 ^ 31 ≤ cpu ∧ cpu < 2 ^ 31 := by decide
    exact ⟨hid, hcpu, planDeps_fit hg hids hmem, hin, hout⟩
  · simpa [recordOf, memoryHints] using hg.tensors.1
  · obtain ⟨t, ht, rfl⟩ := List.mem_map.mp hh
    exact ⟨hg.tensors.2 t ht, estimateTensorBytes_lt t⟩

theorem built_unbroken (hb : buildExecutionPlan h g = .ok p) : (recordOf p).Unbroken ↔ LineNames g := by
  obtain ⟨-, order, hperm, -, rfl⟩ := buildExecutionPlan_nodes hb
  have hkernel : OneLine "" := by simp [OneLine]
  constructor
  · intro hu
    refine ⟨hu.graph_name, fun n hn => ?_, fun t ht => ?_⟩
    · have hop := hu.ops ⟨plannedOp h g n, cpu, ""⟩
        (List.mem_map_of_mem (List.mem_map_of_mem (hperm.mem_iff.mpr hn)))
      exact ⟨hop.node_name, hop.op_name, hop.op_version⟩
    · exact hu.hints _ (List.mem_map_of_mem ht)
  · intro hl
    refine ⟨hl.graph, fun op hop => ?_, fun hint hh => ?_⟩
    · simp only [recordOf, List.mem_map] at hop
      obtain ⟨op', ⟨n, hn, rfl⟩, rfl⟩ := hop
      obtain ⟨hname, hop, hversion⟩ := hl.nodes n (hperm.mem_iff.mp hn)
      exact ⟨hname, hop, hversion, hkernel⟩
    · obtain ⟨t, ht, rfl⟩ := List.mem_map.mp hh
      exact hl.tensors t ht

/-- A built plan is read back, and is all that `get` answers with, exactly when the graph's
    names are single lines. -/
theorem plan_file_iff (hg : GraphWords g) (hb : buildExecutionPlan h g = .ok p) : Kept (recordOf p) ↔ LineNames g :=
  (kept_iff (built_words hg hb)).trans (built_unbroken hb)

end Built

/-! ## A crafted name -/

/-- A graph of one weight. -/
def namedGraph (name : String) : Graph Unit :=
  { version := kCurrentIrVersion, name := name, producer := "", domain := "", nodes := [], inputs := [], outputs := [],
    metadata := [], tensors := [⟨1, "w", .f32, [2], .unspecified, true, "", .f32⟩] }

def namedPlan (name : String) : PlanRecord := ⟨kCurrentIrVersion, name, [], [⟨1, "w", 8, false, false, true⟩], [], []⟩

theorem namedGraph_plan (name : String) :
    ∃ p, buildExecutionPlan .inserted (namedGraph name) = .ok p ∧ recordOf p = namedPlan name := ⟨_, rfl, rfl⟩

theorem plain_name_kept :
    ∃ p, buildExecutionPlan .inserted (namedGraph "g") = .ok p ∧ (Kept (recordOf p) ↔ LineNames (namedGraph "g")) := by
  have hwords : GraphWords (namedGraph "g") := by
    refine ⟨by decide, ⟨by decide, nofun⟩, ⟨by decide, by decide⟩, ⟨by decide, nofun⟩, ⟨by decide, nofun⟩⟩
  obtain ⟨p, hp, -⟩ := namedGraph_plan "g"
  exact ⟨p, hp, plan_file_iff hwords hp⟩

/-- The lines that a plan without operators and weights has after its name. -/
def craftedName : String := "g\n1 0\n0\n0\n0\n0"

/-- After a `put` and a `clear`, `get` answers with another plan. -/
theorem crafted_name_read : ∃ p, buildExecutionPlan .inserted (namedGraph craftedName) = .ok p ∧ ¬ Kept (recordOf p) ∧
    (((⟨fun _ => none, fun _ => none⟩ : DiskCache).put "k" (recordOf p)).clear.get "k").1 =
      some ⟨kCurrentIrVersion, "g", [], [], [], []⟩ := by
  obtain ⟨p, hp, hrec⟩ := namedGraph_plan craftedName
  have hget : (((⟨fun _ => none, fun _ => none⟩ : DiskCache).put "k" (namedPlan craftedName)).clear.get "k").1 =
      some ⟨kCurrentIrVersion, "g", [], [], [], []⟩ := by
    decide +kernel
  refine ⟨p, hp, ?_, hrec ▸ hget⟩
  intro hk
  have hsame := hk.never_other "k" _ (.clear (.put ⟨fun _ => none, fun _ => none⟩)) _ (hrec ▸ hget)
  rw [hrec] at hsame
  exact absurd (congrArg PlanRecord.graphName hsame) (by decide)

end Uaii.Planner
