/-
  Uaii.Core.Plugins — plugin libraries and the operators they register
  (`libs/uaii-core/src/plugin.cpp`, `libs/uaii-kernels/src/operator_host.cpp`,
  `libs/uaii-kernels/src/plugin_host_bridge.cpp`).

  The dynamic loader maps a library to an image and counts the handles of it: the last
  close unmaps it, and a later load of the same path maps another image. What a library
  does when it is loaded (its exports, its info, what it registers and returns) is
  another one each load. A function of `OperatorHostRegistry` is known by the image that
  its code lies in.

  Proved: a step leaves functions of mapped images only exactly when every function that
  it keeps lies in an image of which it leaves a handle, and when a load that fails after
  it registered something leaves another handle of its image (`step_sound_iff`,
  `functions_mapped_iff`).

  As built, nothing takes a name out of the registry: whatever closes a library's last
  handle leaves its functions there (`unloaded_op_still_there`).
-/

import Mathlib.Data.List.Nodup
import Mathlib.Logic.Function.Basic
import Uaii.Core.Error

namespace Uaii.Plugins

structure PluginInfo where
  abiVersion : Nat
  name : String

/-- What a library that was opened holds: whether its three exports are there, its info, the names that its init registers and
    the code it returns, and the same for `uaii_plugin_register` where it is exported. -/
structure Library where
  exports : Bool
  info : Option PluginInfo
  init : List String × Int
  register : Option (List String × Int)

/-- A `Plugin`, in a registry or not. -/
inductive Obj where
  | user (n : Nat)
  | owned (n : Nat)
  deriving DecidableEq, Repr

structure Host where
  /-- The image that a path is mapped to. -/
  image : String → Option Nat
  /-- The handles of an image. -/
  refs : Nat → Nat
  nextImage : Nat
  /-- `handle_`. -/
  handle : Obj → Option Nat
  /-- How many plugins the registry owns. -/
  plugins : Nat
  /-- `ops_`. -/
  ops : String → Option Nat

def abiVersion : Nat := 1

namespace Host

def init : Host := ⟨fun _ => none, fun _ => 0, 0, fun _ => none, 0, fun _ => none⟩

/-- `load_library` of a library that is there. -/
def openLibrary (h : Host) (path : String) : Nat × Host :=
  match h.image path with
  | some i => (i, { h with refs := Function.update h.refs i (h.refs i + 1) })
  | none => (h.nextImage, { h with
      image := Function.update h.image path (some h.nextImage)
      refs := Function.update h.refs h.nextImage 1
      nextImage := h.nextImage + 1 })

def closeLibrary (h : Host) (i : Nat) : Host :=
  { h with
    refs := Function.update h.refs i (h.refs i - 1)
    image := fun path => if h.image path = some i ∧ h.refs i ≤ 1 then none else h.image path }

/-- `register_op` for each name, with a function of image `i`. -/
def registerOps (h : Host) (i : Nat) (names : List String) : Host :=
  { h with ops := fun name => if name ∈ names then some i else h.ops name }

def has (h : Host) (name : String) : Bool := (h.ops name).isSome

/-- The image that is called into. -/
def dispatch (h : Host) (name : String) : Result Nat :=
  match h.ops name with
  | none => fail .notFound ("plugin op not registered: " ++ name)
  | some i => .ok i

def unload (h : Host) (p : Obj) : Host :=
  match h.handle p with
  | none => h
  | some i => { h.closeLibrary i with handle := Function.update h.handle p none }

/-- `operator=`. -/
def move (h : Host) (p q : Obj) : Host :=
  if p = q then h
  else
    let h := h.unload p
    { h with handle := Function.update (Function.update h.handle p (h.handle q)) q none }

-- whether `uaii_kernels` has installed its offer
variable (offers : Bool)

/-- `Plugin::load`; a library that does not open gives the loader's text. -/
def load (h : Host) (p : Obj) (path : String) (found : Except String Library) : Result Unit × Host :=
  let h := h.unload p
  match found with
  | .error text => (fail .pluginError ("failed to load plugin '" ++ path ++ "': " ++ text), h)
  | .ok lib =>
    let (i, h) := h.openLibrary path
    if !lib.exports then
      (fail .pluginError ("plugin '" ++ path ++ "' missing required exports (uaii_plugin_get_info/init/shutdown)"), h.closeLibrary i)
    else
      match lib.info with
      | none => (fail .pluginError ("plugin '" ++ path ++ "' returned null info"), h.closeLibrary i)
      | some info =>
        if info.abiVersion ≠ abiVersion then
          (fail .abiMismatch ("plugin '" ++ path ++ "' ABI " ++ toString info.abiVersion ++ " incompatible with host ABI " ++
            toString abiVersion), h.closeLibrary i)
        else
          let h := h.registerOps i lib.init.1
          if lib.init.2 ≠ 0 then
            (fail .pluginError ("plugin '" ++ path ++ "' init failed with code " ++ toString lib.init.2), h.closeLibrary i)
          else
            let h := { h with handle := Function.update h.handle p (some i) }
            match (if offers then lib.register else none) with
            | none => (.ok (), h)
            | some (names, rc) =>
              let h := h.registerOps i names
              if rc ≠ 0 then
                (fail .pluginError ("uaii_plugin_register failed for " ++ info.name ++ " code " ++ toString rc), h.unload p)
              else (.ok (), h)

/-- `PluginRegistry::load_path`. A plugin that did not load holds no handle, and nothing is left of it. -/
def loadPath (h : Host) (path : String) (found : Except String Library) : Result Unit × Host :=
  match h.load offers (.owned h.plugins) path found with
  | (.error e, h) => (.error e, h)
  | (.ok (), h) => (.ok (), { h with plugins := h.plugins + 1 })

/-- `PluginRegistry::clear`. -/
def clear (h : Host) : Host := { ((List.range h.plugins).map Obj.owned).foldl unload h with plugins := 0 }

inductive Event where
  | load (p : Obj) (path : String) (found : Except String Library)
  | unload (p : Obj)
  | destroy (p : Obj)
  | move (p q : Obj)
  | loadPath (path : String) (found : Except String Library)
  | clear
  | dispatch (name : String)

def step (h : Host) : Event → Host
  | .load p path found => (h.load offers p path found).2
  | .unload p => h.unload p
  | .destroy p => h.unload p
  | .move p q => h.move p q
  | .loadPath path found => (h.loadPath offers path found).2
  | .clear => h.clear
  | .dispatch _ => h

/-- Every function lies in an image that is mapped, whatever is dispatched. -/
def FunctionsMapped (h : Host) : Prop := ∀ name i, h.ops name = some i → 0 < h.refs i

/-- A name that is reported is dispatched into a mapped image. -/
theorem has_mapped {h : Host} (hm : h.FunctionsMapped) {name : String} (hhas : h.has name) :
    ∃ i, h.dispatch name = .ok i ∧ 0 < h.refs i := by
  obtain ⟨i, hi⟩ := Option.isSome_iff_exists.mp hhas
  exact ⟨i, by rw [dispatch, hi], hm name i hi⟩

/-! ## The condition -/

/-- The names that a load registers before it returns. -/
def registered : Except String Library → List String
  | .error _ => []
  | .ok lib =>
    if lib.exports ∧ lib.info.any (·.abiVersion == abiVersion) then
      lib.init.1 ++ if offers ∧ lib.init.2 = 0 then (lib.register.map (·.1)).getD [] else []
    else []

/-- A library that is opened, and kept. -/
def Accepted (lib : Library) : Prop :=
  lib.exports ∧ lib.info.any (·.abiVersion == abiVersion) ∧ lib.init.2 = 0 ∧ (offers → ∀ r ∈ lib.register, r.2 = 0)

instance (lib : Library) : Decidable (Accepted offers lib) := by
  unfold Accepted
  exact inferInstance

/-- How many handles of image `i` a plugin object holds. -/
def held (h : Host) (i : Nat) (p : Obj) : Nat := if h.handle p = some i then 1 else 0

/-- The handles of image `i` that a step closes, those apart that it opens. -/
def closes (h : Host) : Event → Nat → Nat
  | .load p _ _, i => h.held i p
  | .unload p, i => h.held i p
  | .destroy p, i => h.held i p
  | .move p q, i => if p = q then 0 else h.held i p
  | .loadPath _ _, i => h.held i (.owned h.plugins)
  | .clear, i => (((List.range h.plugins).map Obj.owned).map (h.held i)).sum
  | .dispatch _, _ => 0

/-- What a step loads. -/
def Event.loads : Event → Option (String × Except String Library)
  | .load _ path found => some (path, found)
  | .loadPath path found => some (path, found)
  | _ => none

/-- Every function that is not registered anew lies in an image that keeps a handle, and a load that registers something and
    then fails leaves its image mapped for another handle. -/
def Careful (h : Host) (e : Event) : Prop :=
  (∀ name i, h.ops name = some i → (∀ l ∈ e.loads, name ∉ registered offers l.2) → h.closes e i < h.refs i) ∧
  ∀ l ∈ e.loads, registered offers l.2 ≠ [] → (∀ lib, l.2 = .ok lib → ¬ Accepted offers lib) →
    ∃ i, h.image l.1 = some i ∧ h.closes e i < h.refs i

/-! ## Steps -/

/-- Images have handles while a path is mapped to them, and images to come have none. -/
structure Wf (h : Host) : Prop where
  mapped : ∀ path i, h.image path = some i → 0 < h.refs i
  fresh : ∀ i, h.nextImage ≤ i → h.refs i = 0

theorem init_wf : init.Wf := ⟨by simp [init], by simp [init]⟩

variable {h : Host} {p : Obj}

theorem closeLibrary_wf (hw : h.Wf) (i : Nat) : (h.closeLibrary i).Wf where
  mapped path j hj := by
    simp only [closeLibrary] at hj ⊢
    split at hj
    · cases hj
    · next hno =>
      have hpos := hw.mapped path j hj
      by_cases hij : j = i
      · subst hij
        rw [Function.update_self]
        have : ¬ h.refs j ≤ 1 := fun hle => hno ⟨hj, hle⟩
        omega
      · rwa [Function.update_of_ne hij]
  fresh j hj := by
    have hzero := hw.fresh j hj
    simp only [closeLibrary]
    by_cases hij : j = i
    · subst hij
      rw [Function.update_self]
      omega
    · rwa [Function.update_of_ne hij]

theorem unload_wf (hw : h.Wf) (p : Obj) : (h.unload p).Wf := by
  unfold unload
  split
  · exact hw
  · exact ⟨(closeLibrary_wf hw _).mapped, (closeLibrary_wf hw _).fresh⟩

/-- What an unload does to the counts, and what it leaves alone. -/
theorem unload_refs (h : Host) (p : Obj) (i : Nat) : (h.unload p).refs i = h.refs i - h.held i p := by
  unfold unload held
  cases hp : h.handle p with
  | none => simp
  | some j =>
    simp only [closeLibrary, Option.some.injEq]
    by_cases hij : i = j
    · subst hij
      simp
    · rw [Function.update_of_ne hij, if_neg (fun hji => hij hji.symm), Nat.sub_zero]

@[simp] theorem unload_ops (h : Host) (p : Obj) : (h.unload p).ops = h.ops := by
  unfold unload
  split <;> rfl

@[simp] theorem unload_nextImage (h : Host) (p : Obj) : (h.unload p).nextImage = h.nextImage := by
  unfold unload
  split <;> rfl

theorem unload_handle (h : Host) (p : Obj) : (h.unload p).handle = Function.update h.handle p none := by
  unfold unload
  split
  · next hp => rw [Function.update_eq_self_iff.mpr hp.symm]
  · rfl

/-- An image stays mapped exactly when a handle is left. -/
theorem unload_image (hw : h.Wf) {path : String} {i : Nat} :
    (h.unload p).image path = some i ↔ h.image path = some i ∧ h.held i p < h.refs i := by
  unfold unload held
  cases hp : h.handle p with
  | none => simpa using fun hi => hw.mapped path i hi
  | some j =>
    simp only [closeLibrary, Option.some.injEq]
    split
    · next hgone =>
      refine iff_of_false (by simp) ?_
      rintro ⟨hi, hlt⟩
      obtain rfl := Option.some.inj (hgone.1.symm.trans hi)
      rw [if_pos rfl] at hlt
      omega
    · next hno =>
      refine ⟨fun hi => ⟨hi, ?_⟩, fun hi => hi.1⟩
      have hpos := hw.mapped path i hi
      split
      · next hji =>
        subst hji
        exact Nat.lt_of_not_le fun hle => hno ⟨hi, hle⟩
      · exact hpos

/-- A library that is opened has its image, and one handle more. -/
theorem openLibrary_spec (hw : h.Wf) (path : String) : ∃ i, (h.openLibrary path).1 = i ∧ (h.openLibrary path).2.Wf ∧
    (h.openLibrary path).2.refs = Function.update h.refs i (h.refs i + 1) ∧ (h.openLibrary path).2.ops = h.ops ∧
    (h.openLibrary path).2.handle = h.handle ∧ (h.openLibrary path).2.plugins = h.plugins ∧
    (h.image path = some i ∨ h.image path = none ∧ i = h.nextImage) := by
  unfold openLibrary
  cases hpath : h.image path with
  | some i =>
    refine ⟨i, rfl, ⟨fun q j hj => ?_, fun j hj => ?_⟩, rfl, rfl, rfl, rfl, .inl rfl⟩
    · by_cases hji : j = i
      · subst hji
        simp
      · simpa [Function.update_of_ne hji] using hw.mapped q j hj
    · have hzero := hw.fresh j hj
      have hji : j ≠ i := by
        rintro rfl
        have := hw.mapped path j hpath
        omega
      simpa [Function.update_of_ne hji] using hzero
  | none =>
    have hzero := hw.fresh h.nextImage (Nat.le_refl _)
    refine ⟨h.nextImage, rfl, ⟨fun q j hj => ?_, fun j hj => ?_⟩, by rw [hzero], rfl, rfl, rfl, .inr ⟨rfl, rfl⟩⟩
    · simp only [Function.update_apply] at hj ⊢
      split at hj
      · obtain rfl := Option.some.inj hj
        simp
      · have := hw.mapped q j hj
        split <;> omega
    · have hj : h.nextImage + 1 ≤ j := hj
      have hji : j ≠ h.nextImage := by omega
      simpa [Function.update_of_ne hji] using hw.fresh j (by omega)

/-- A handle that was opened and is closed again. -/
theorem closeLibrary_refs {k : Host} {i : Nat} (hrefs : k.refs = Function.update h.refs i (h.refs i + 1)) :
    (k.closeLibrary i).refs = h.refs := by
  simp only [closeLibrary, hrefs, Function.update_self, Nat.add_sub_cancel, Function.update_idem, Function.update_eq_self]

/-- A library that is closed again leaves only what it registered. -/
theorem closed_spec {k : Host} {p : Obj} {path : String} {lib : Library} {i : Nat} {code : ErrorCode} {text : String}
    (hrej : ¬ Accepted offers lib) (hwf : k.Wf) (hback : (k.closeLibrary i).refs = (h.unload p).refs)
    (hops : k.ops = fun name => if name ∈ registered offers (.ok lib) then some i else h.ops name)
    (hmapped : (h.unload p).image path = some i ∨ (h.unload p).image path = none ∧ i = h.nextImage) :
    ((fail code text : Result Unit) = .ok () ↔ Accepted offers lib) ∧ (k.closeLibrary i).Wf ∧
      (k.closeLibrary i).ops = (fun name => if name ∈ registered offers (.ok lib) then some i else h.ops name) ∧
      ((h.unload p).image path = some i ∨ (h.unload p).image path = none ∧ i = h.nextImage) ∧
      (k.closeLibrary i).refs = if Accepted offers lib then
        Function.update (h.unload p).refs i ((h.unload p).refs i + 1) else (h.unload p).refs := by
  refine ⟨iff_of_false (fail_ne_ok _ _ _) hrej, closeLibrary_wf hwf _, hops, hmapped, ?_⟩
  rw [if_neg hrej]
  exact hback

/-- What a library that was opened leaves: the names that it registered lie in its image, which has a handle more exactly when
    the load is accepted. -/
theorem load_spec (hw : h.Wf) (p : Obj) (path : String) (lib : Library) : ∃ i,
    ((h.load offers p path (.ok lib)).1 = .ok () ↔ Accepted offers lib) ∧ (h.load offers p path (.ok lib)).2.Wf ∧
    (h.load offers p path (.ok lib)).2.ops = (fun name => if name ∈ registered offers (.ok lib) then some i else h.ops name) ∧
    ((h.unload p).image path = some i ∨ (h.unload p).image path = none ∧ i = h.nextImage) ∧
    (h.load offers p path (.ok lib)).2.refs = if Accepted offers lib then
      Function.update (h.unload p).refs i ((h.unload p).refs i + 1) else (h.unload p).refs := by
  obtain ⟨i, hfirst, hwf, hrefs, hops, -, -, hmapped⟩ := openLibrary_spec (unload_wf hw p) path
  rw [unload_ops] at hops
  rw [unload_nextImage] at hmapped
  refine ⟨i, ?_⟩
  simp only [load]
  rcases hg : (h.unload p).openLibrary path with ⟨j, k⟩
  rw [hg] at hfirst hwf hrefs hops
  obtain rfl := hfirst
  dsimp only at hwf hrefs hops
  have hback := closeLibrary_refs hrefs
  split
  · next hexports =>
    have hno : ¬ lib.exports = true := by simpa using hexports
    have hrej : ¬ Accepted offers lib := fun ha => hno ha.1
    refine closed_spec offers hrej hwf hback ?_ hmapped
    simp [hops, registered, hno]
  · next hexports =>
    have hexports : lib.exports = true := by simpa using hexports
    split
    · next hinfo =>
      have hrej : ¬ Accepted offers lib := fun ha => by simpa [hinfo] using ha.2.1
      refine closed_spec offers hrej hwf hback ?_ hmapped
      simp [hops, registered, hinfo]
    · next info hinfo =>
      split
      · next habi =>
        have hrej : ¬ Accepted offers lib := fun ha => by simpa [hinfo, habi] using ha.2.1
        refine closed_spec offers hrej hwf hback ?_ hmapped
        simp [hops, registered, hinfo, habi]
      · next habi =>
        have habi : info.abiVersion = abiVersion := not_not.mp habi
        have hwf' : (k.registerOps j lib.init.1).Wf := ⟨hwf.mapped, hwf.fresh⟩
        split
        · next hinit =>
          have hrej : ¬ Accepted offers lib := fun ha => hinit ha.2.2.1
          refine closed_spec offers hrej hwf' hback ?_ hmapped
          simp [registerOps, hops, registered, hexports, hinfo, habi, hinit]
        · next hinit =>
          have hinit : lib.init.2 = 0 := not_not.mp hinit
          split
          · next hreg =>
            have hacc : Accepted offers lib := by
              refine ⟨hexports, by simp [hinfo, habi], hinit, fun ho r hr => ?_⟩
              rw [if_pos ho, hr] at hreg
              cases hreg
            refine ⟨iff_of_true rfl hacc, ⟨hwf.mapped, hwf.fresh⟩, ?_, hmapped, by rw [if_pos hacc]; exact hrefs⟩
            have hnone : (if offers = true then (lib.register.map (·.1)).getD [] else []) = [] := by
              split
              · next ho =>
                rw [if_pos ho] at hreg
                simp [hreg]
              · rfl
            simp [registerOps, hops, registered, hexports, hinfo, habi, hinit, hnone]
          · next names rc hreg =>
            have ho : offers = true := by
              by_contra hno
              rw [if_neg hno] at hreg
              cases hreg
            rw [if_pos ho] at hreg
            have hops' : (fun name => if name ∈ names then some j else if name ∈ lib.init.1 then some j else h.ops name) =
                fun name => if name ∈ registered offers (.ok lib) then some j else h.ops name := by
              funext name
              simp only [registered, hexports, hinfo, habi, hinit, ho, hreg, Option.any_some, beq_self_eq_true, and_self,
                if_true, Option.map_some, Option.getD_some, List.mem_append]
              split_ifs <;> first | rfl | tauto
            split
            · next hrc =>
              have hrej : ¬ Accepted offers lib := fun ha => hrc (ha.2.2.2 ho _ hreg)
              refine ⟨iff_of_false (fail_ne_ok _ _ _) hrej, ?_, ?_, hmapped, ?_⟩
              · refine unload_wf ?_ p
                exact ⟨hwf.mapped, hwf.fresh⟩
              · simpa [registerOps, hops] using hops'
              · rw [if_neg hrej]
                unfold unload
                simp only [registerOps, Function.update_self]
                exact hback
            · next hrc =>
              have hacc : Accepted offers lib := by
                refine ⟨hexports, by simp [hinfo, habi], hinit, fun _ r hr => ?_⟩
                obtain rfl := Option.some.inj (hreg.symm.trans hr)
                exact not_not.mp hrc
              refine ⟨iff_of_true rfl hacc, ⟨hwf.mapped, hwf.fresh⟩, ?_, hmapped, by rw [if_pos hacc]; exact hrefs⟩
              simpa [registerOps, hops] using hops'

/-- A load that is not accepted fails, and none other does. -/
theorem load_ok_iff (hw : h.Wf) (p : Obj) (path : String) (lib : Library) :
    (h.load offers p path (.ok lib)).1 = .ok () ↔ Accepted offers lib := by
  obtain ⟨_, hok, -⟩ := load_spec offers hw p path lib
  exact hok

/-! ## The condition is exact -/

/-- A step that loads nothing keeps every function exactly when handles are left of its image. -/
theorem mapped_left_iff {h' : Host} {n : Nat → Nat} (hops : h'.ops = h.ops) (hrefs : ∀ i, h'.refs i = h.refs i - n i) :
    h'.FunctionsMapped ↔ ∀ name i, h.ops name = some i → n i < h.refs i := by
  simp only [FunctionsMapped, hops, hrefs, Nat.sub_pos_iff_lt]

theorem load_mapped_iff (hw : h.Wf) (hm : h.FunctionsMapped) (p : Obj) (path : String) (found : Except String Library) :
    (h.load offers p path found).2.FunctionsMapped ↔
      (∀ name i, h.ops name = some i → name ∉ registered offers found → h.held i p < h.refs i) ∧
      (registered offers found ≠ [] → (∀ lib, found = .ok lib → ¬ Accepted offers lib) →
        ∃ i, h.image path = some i ∧ h.held i p < h.refs i) := by
  have hleft : ∀ i, 0 < (h.unload p).refs i ↔ h.held i p < h.refs i := by
    intro i
    rw [unload_refs, Nat.sub_pos_iff_lt]
  cases found with
  | error text =>
    have hload : (h.load offers p path (.error text)).2 = h.unload p := rfl
    simp [hload, FunctionsMapped, hleft, registered]
  | ok lib =>
    obtain ⟨i, -, -, hops, hwhere, hrefs⟩ := load_spec offers hw p path lib
    simp only [FunctionsMapped, hops, hrefs]
    constructor
    · intro hall
      refine ⟨fun name j hj hnew => (hleft j).mp ?_, fun hne hrej => ?_⟩
      · have hpos := hall name j (by rwa [if_neg hnew])
        split at hpos
        · by_cases hji : j = i
          · subst hji
            rcases hwhere with hold | ⟨-, rfl⟩
            · exact (unload_wf hw p).mapped path j hold
            · exact absurd (hw.fresh _ (Nat.le_refl _)) (Nat.ne_of_gt (hm name _ hj))
          · rwa [Function.update_of_ne hji] at hpos
        · exact hpos
      · obtain ⟨name, hname⟩ := List.exists_mem_of_ne_nil _ hne
        have hpos := hall name i (by rw [if_pos hname])
        rw [if_neg (hrej lib rfl)] at hpos
        rcases hwhere with hold | ⟨-, rfl⟩
        · exact ⟨i, (unload_image hw).mp hold⟩
        · have hzero := hw.fresh _ (Nat.le_refl _)
          rw [unload_refs, hzero, Nat.zero_sub] at hpos
          exact absurd hpos (Nat.lt_irrefl 0)
    · intro hcare name j hj
      obtain ⟨hold, hnew⟩ := hcare
      split at hj
      · next hname =>
        obtain rfl := Option.some.inj hj
        split
        · simp
        · next hrej =>
          obtain ⟨k, hk⟩ := hnew (List.ne_nil_of_mem hname) fun l hl => by cases hl; exact hrej
          rcases hwhere with hsame | ⟨hnone, -⟩
          · exact (unload_wf hw p).mapped path i hsame
          · rw [(unload_image hw).mpr hk] at hnone
            cases hnone
      · next hname =>
        have hpos := (hleft j).mpr (hold name j hj hname)
        split
        · rw [Function.update_apply]
          split <;> omega
        · exact hpos

/-- Plugins that are unloaded one after the other. -/
theorem unloadAll_refs : ∀ {ps : List Obj} (h : Host), ps.Nodup → (∀ i, (ps.foldl unload h).refs i =
    h.refs i - (ps.map (h.held i)).sum) ∧ (ps.foldl unload h).ops = h.ops
  | [], _, _ => ⟨fun _ => rfl, rfl⟩
  | p :: ps, h, hnodup => by
    obtain ⟨hp, hps⟩ := List.nodup_cons.mp hnodup
    obtain ⟨hrefs, hops⟩ := unloadAll_refs (h.unload p) hps
    refine ⟨fun i => ?_, hops.trans (unload_ops h p)⟩
    have hheld : ps.map ((h.unload p).held i) = ps.map (h.held i) := by
      refine List.map_congr_left fun q hq => ?_
      have hqp : q ≠ p := fun he => hp (he ▸ hq)
      rw [held, held, unload_handle, Function.update_of_ne hqp]
    rw [List.foldl_cons, hrefs, hheld, unload_refs, List.map_cons, List.sum_cons, Nat.sub_sub]

theorem unloadAll_wf : ∀ {ps : List Obj} {h : Host}, h.Wf → (ps.foldl unload h).Wf
  | [], _, hw => hw
  | p :: ps, h, hw => by
    rw [List.foldl_cons]
    exact unloadAll_wf (unload_wf hw p)

theorem load_wf (hw : h.Wf) (p : Obj) (path : String) (found : Except String Library) : (h.load offers p path found).2.Wf := by
  cases found with
  | error text => exact unload_wf hw p
  | ok lib =>
    obtain ⟨i, -, hload, -⟩ := load_spec offers hw p path lib
    exact hload

/-- The registry's load is the plugin's, and one more plugin when it succeeds. -/
theorem loadPath_same (h : Host) (path : String) (found : Except String Library) :
    ∃ n, (h.loadPath offers path found).2 = { (h.load offers (.owned h.plugins) path found).2 with plugins := n } := by
  unfold loadPath
  split
  · next heq => exact ⟨_, by rw [heq]⟩
  · next heq => exact ⟨_, by rw [heq]⟩

theorem step_wf (hw : h.Wf) (e : Event) : (step offers h e).Wf := by
  cases e with
  | load p path found => exact load_wf offers hw p path found
  | unload p => exact unload_wf hw p
  | destroy p => exact unload_wf hw p
  | move p q =>
    simp only [step, move]
    split
    · exact hw
    · exact ⟨(unload_wf hw p).mapped, (unload_wf hw p).fresh⟩
  | loadPath path found =>
    obtain ⟨n, hsame⟩ := loadPath_same offers h path found
    have hload := load_wf offers hw (.owned h.plugins) path found
    rw [step, hsame]
    exact ⟨hload.mapped, hload.fresh⟩
  | clear =>
    have hall : (((List.range h.plugins).map Obj.owned).foldl unload h).Wf := unloadAll_wf hw
    exact ⟨hall.mapped, hall.fresh⟩
  | dispatch name => exact hw

theorem careful_quiet {e : Event} (he : e.loads = none) :
    Careful offers h e ↔ ∀ name i, h.ops name = some i → h.closes e i < h.refs i := by
  simp [Careful, he]

theorem careful_load {e : Event} {path : String} {found : Except String Library} (he : e.loads = some (path, found)) :
    Careful offers h e ↔ (∀ name i, h.ops name = some i → name ∉ registered offers found → h.closes e i < h.refs i) ∧
      (registered offers found ≠ [] → (∀ lib, found = .ok lib → ¬ Accepted offers lib) →
        ∃ i, h.image path = some i ∧ h.closes e i < h.refs i) := by
  simp [Careful, he]

/-- A step keeps every function in a mapped image exactly when it is careful. -/
theorem step_mapped_iff (hw : h.Wf) (hm : h.FunctionsMapped) (e : Event) :
    (step offers h e).FunctionsMapped ↔ Careful offers h e := by
  cases e with
  | load p path found =>
    rw [careful_load offers rfl]
    exact load_mapped_iff offers hw hm p path found
  | unload p =>
    rw [careful_quiet offers rfl]
    exact mapped_left_iff (unload_ops h p) (unload_refs h p)
  | destroy p =>
    rw [careful_quiet offers rfl]
    exact mapped_left_iff (unload_ops h p) (unload_refs h p)
  | move p q =>
    rw [careful_quiet offers rfl]
    by_cases hpq : p = q
    · simp only [step, move, if_pos hpq, closes]
      exact iff_of_true hm hm
    · simp only [step, move, if_neg hpq, closes]
      exact mapped_left_iff (unload_ops h p) (unload_refs h p)
  | loadPath path found =>
    obtain ⟨n, hsame⟩ := loadPath_same offers h path found
    rw [careful_load offers rfl, step, hsame]
    exact load_mapped_iff offers hw hm (.owned h.plugins) path found
  | clear =>
    have hnodup : ((List.range h.plugins).map Obj.owned).Nodup :=
      List.nodup_range.map fun a b hab => Obj.owned.inj hab
    obtain ⟨hrefs, hops⟩ := unloadAll_refs h hnodup
    rw [careful_quiet offers rfl]
    have hall : (((List.range h.plugins).map Obj.owned).foldl unload h).FunctionsMapped ↔ _ := mapped_left_iff hops hrefs
    exact hall
  | dispatch name =>
    rw [careful_quiet offers rfl]
    exact iff_of_true hm hm

/-! ## Runs -/

/-- `P` holds of every step of a run. -/
def Along (P : Host → Event → Host → Prop) : List Event → Host → Prop
  | [], _ => True
  | e :: es, h => P h e (step offers h e) ∧ Along P es (step offers h e)

theorem along_mapped_iff : ∀ (es : List Event) {h : Host}, h.Wf → h.FunctionsMapped →
    (Along offers (fun _ _ h' => h'.FunctionsMapped) es h ↔ Along offers (fun h e _ => Careful offers h e) es h)
  | [], _, _, _ => Iff.rfl
  | e :: es, h, hw, hm => by
    have hstep := step_mapped_iff offers hw hm e
    constructor
    · intro hall
      exact ⟨hstep.mp hall.1, (along_mapped_iff es (step_wf offers hw e) hall.1).mp hall.2⟩
    · intro hall
      have hm' := hstep.mpr hall.1
      exact ⟨hm', (along_mapped_iff es (step_wf offers hw e) hm').mpr hall.2⟩

/-- In every state of a run all functions lie in mapped images, exactly when every step of the run is careful. -/
theorem functions_mapped_iff (es : List Event) :
    Along offers (fun _ _ h' => h'.FunctionsMapped) es init ↔ Along offers (fun h e _ => Careful offers h e) es init :=
  along_mapped_iff offers es init_wf (by simp [FunctionsMapped, init])

/-- A library that registers `Neg` when it is loaded. -/
def negLibrary : Library := ⟨true, some ⟨abiVersion, "neg"⟩, (["Neg"], 0), none⟩

/-- It is loaded and unloaded: `Neg` is still reported, and leads nowhere. -/
theorem unloaded_op_still_there :
    ¬ Along true (fun _ _ h' => h'.FunctionsMapped) [.load (.user 0) "neg.so" (.ok negLibrary), .unload (.user 0)] init := by
  intro hall
  exact absurd (hall.2.1 "Neg" 0 (by decide)) (by decide)

end Host

end Uaii.Plugins
