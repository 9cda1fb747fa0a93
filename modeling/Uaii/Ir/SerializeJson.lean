/-
  Uaii.Ir.SerializeJson — `graph_to_json` and `graph_from_json`
  (`libs/uaii-ir/src/serialize_json.cpp`).

  Floating-point attributes are values of finite doubles. A cast of a number that the
  type cannot hold is undefined behaviour. An id, a dimension or an integer goes through a
  double, which holds it up to `2 ^ 53`.

  Proved: a graph in that range comes back as it was exactly when each of its numbers
  survives `stringify` and `parse` (`json_round_trip_iff`). The `eps` that a loader takes
  from a file is a float, and `1e-5f` does not (`norm_float_eps_is_lost`).
-/

import Uaii.Ir.Graph
import Uaii.Ir.JsonRoundTrip
import Uaii.Ir.SerializeBinary

namespace Uaii.Ir

open Json Quant

/-! ## `graph_to_json` -/

/-- `o[key] = value` for each of them. -/
def objectOf (fields : List (String × Value)) : Object := fields.foldl (fun o kv => o.set kv.1 kv.2) []

/-- `static_cast<double>`. -/
def intToJson (n : Int) : Value := .num (toDouble n)

def idToJson (id : Nat) : Value := intToJson id

def shapeToJson (dims : List Int) : Value := .arr (dims.map intToJson)

def valueToJson : AttributeValue ℚ → Value
  | .string s => .str s
  | .int n => intToJson n
  | .float x => .num x
  | .bool b => .bool b
  | .intArray ns => .arr (ns.map intToJson)
  | .floatArray xs => .arr (xs.map .num)

def attrToJson (a : Attribute ℚ) : Value :=
  .obj (objectOf [("key", .str a.key), ("type", .str (attributeTypeName a.value)), ("value", valueToJson a.value)])

def tensorToJson (t : Tensor) : Value :=
  .obj (objectOf [("id", idToJson t.id), ("name", .str t.name), ("dtype", .str t.dtype.toString), ("shape", shapeToJson t.shape),
    ("storage_hint", .str t.storageHint.toString), ("is_weight", .bool t.isWeight), ("weight_ref", .str t.weightRef),
    ("quant_format", .str t.quantFormat.toString)])

def nodeToJson (n : Node ℚ) : Value :=
  .obj (objectOf [("id", idToJson n.id), ("name", .str n.name), ("op_name", .str n.opName), ("op_version", .str n.opVersion),
    ("inputs", .arr (n.inputs.map idToJson)), ("outputs", .arr (n.outputs.map idToJson)),
    ("attributes", .arr (n.attributes.map attrToJson))])

def versionToJson (v : IrVersion) : Value := .obj (objectOf [("major", idToJson v.major), ("minor", idToJson v.minor)])

/-- In whatever order the metadata is walked. -/
def metadataToJson (m : List (String × String)) : Value := .obj (objectOf (m.map fun kv => (kv.1, .str kv.2)))

def graphValue (g : Graph ℚ) : Value :=
  .obj (objectOf [("ir_version", versionToJson g.version), ("name", .str g.name), ("producer", .str g.producer),
    ("domain", .str g.domain), ("tensors", .arr (g.tensors.map tensorToJson)), ("nodes", .arr (g.nodes.map nodeToJson)),
    ("inputs", .arr (g.inputs.map idToJson)), ("outputs", .arr (g.outputs.map idToJson)),
    ("metadata", metadataToJson g.metadata)])

def graphToJson (g : Graph ℚ) : String := stringify true (graphValue g)

/-! ## `graph_from_json` -/

def requireObject (v : Value) (ctx : String) : Result Object :=
  match v with
  | .obj o => .ok o
  | _ => fail .invalidArgument (ctx ++ ": expected object")

def requireArray (v : Value) (ctx : String) : Result (List Value) :=
  match v with
  | .arr vs => .ok vs
  | _ => fail .invalidArgument (ctx ++ ": expected array")

/-- A number, cast. -/
def number {α : Type} (cast : ℚ → Result α) (msg : String) (v : Value) : Result α :=
  match v with
  | .num x => cast x
  | _ => fail .invalidArgument msg

/-- A number that has to be there. -/
def numberField {α : Type} (cast : ℚ → Result α) (msg : String) (o : Object) (key : String) : Result α :=
  match o.get key with
  | some v => number cast msg v
  | none => fail .invalidArgument msg

def strField (o : Object) (key default : String) : String :=
  match o.get key with
  | some (.str s) => s
  | _ => default

def boolField (o : Object) (key : String) (default : Bool) : Bool :=
  match o.get key with
  | some (.bool b) => b
  | _ => default

def arrayItems {α : Type} (item : Value → Result α) (ctx : String) (v : Value) : Result (List α) := do
  let vs ← requireArray v ctx
  vs.mapM item

/-- An array that may be missing. -/
def arrayField {α : Type} (item : Value → Result α) (o : Object) (key ctx : String) : Result (List α) :=
  match o.get key with
  | some v => arrayItems item ctx v
  | none => .ok []

def shapeFromJson : Value → Result (List Int) := arrayItems (number castI64 "shape dims must be numbers") "shape"

def valueFromJson (t : String) (value : Value) : Result (AttributeValue ℚ) :=
  if t = "string" then
    match value with
    | .str s => .ok (.string s)
    | _ => fail .invalidArgument "string attr value"
  else if t = "int" then do
    let n ← number castI64 "int attr value" value
    .ok (.int n)
  else if t = "float" then do
    let x ← number .ok "float attr value" value
    .ok (.float x)
  else if t = "bool" then
    match value with
    | .bool b => .ok (.bool b)
    | _ => fail .invalidArgument "bool attr value"
  else if t = "int_array" then do
    let ns ← arrayItems (number castI64 "int_array item") "int_array" value
    .ok (.intArray ns)
  else if t = "float_array" then do
    let xs ← arrayItems (number .ok "float_array item") "float_array" value
    .ok (.floatArray xs)
  else fail .invalidArgument ("unknown attribute type " ++ t)

def attrFromJson (v : Value) : Result (Attribute ℚ) := do
  let o ← requireObject v "attribute"
  match o.get "key", o.get "type", o.get "value" with
  | some (.str key), some (.str t), some value => do
    let x ← valueFromJson t value
    .ok ⟨key, x⟩
  | _, _, _ => fail .invalidArgument "attribute missing key/type/value"

/-- A name that is parsed, or an error. -/
def namedField {α : Type} (read : String → Option α) (err : String → String) (o : Object) (key : String) (default : α) :
    Result α :=
  match o.get key with
  | some (.str s) =>
    match read s with
    | some x => .ok x
    | none => fail .invalidArgument (err s)
  | _ => .ok default

def tensorFromJson (v : Value) : Result Tensor := do
  let o ← requireObject v "tensor"
  let id ← numberField (castUnsigned 64) "tensor.id required" o "id"
  let dtype ← namedField parseDtype ("bad dtype " ++ ·) o "dtype" .unknown
  let shape ← match o.get "shape" with
    | some s => shapeFromJson s
    | none => .ok []
  let hint ← namedField parseStorageHint (fun _ => "bad storage_hint") o "storage_hint" .unspecified
  .ok ⟨id, strField o "name" "", dtype, shape, hint, boolField o "is_weight" false, strField o "weight_ref" "",
    -- an unknown format is ignored
    (parseQuantFormat (strField o "quant_format" "")).getD .f32⟩

def nodeFromJson (v : Value) : Result (Node ℚ) := do
  let o ← requireObject v "node"
  let id ← numberField (castUnsigned 64) "node.id required" o "id"
  let inputs ← arrayField (number (castUnsigned 64) "node.inputs id") o "inputs" "node.inputs"
  let outputs ← arrayField (number (castUnsigned 64) "node.outputs id") o "outputs" "node.outputs"
  let attributes ← arrayField attrFromJson o "attributes" "node.attributes"
  .ok ⟨id, strField o "name" "", strField o "op_name" "", strField o "op_version" "1", inputs, outputs, attributes⟩

def versionFromJson (ver : Value) : Result IrVersion := do
  let vo ← requireObject ver "ir_version"
  match vo.get "major", vo.get "minor" with
  | some (.num major), some (.num minor) => do
    let major ← castUnsigned 32 major
    let minor ← castUnsigned 32 minor
    .ok ⟨major, minor⟩
  | _, _ => fail .invalidArgument "ir_version.major/minor required"

/-- Where the value is a string. -/
def metadataEntry (kv : String × Value) : Option (String × String) :=
  match kv.2 with
  | .str s => some (kv.1, s)
  | _ => none

def metadataFromJson (o : Object) : List (String × String) :=
  match o.get "metadata" with
  | some (.obj m) => metadataOf (m.filterMap metadataEntry)
  | _ => []

def graphOfValue (v : Value) : Result (Graph ℚ) := do
  let root ← requireObject v "graph"
  let version ← match root.get "ir_version" with
    | some ver => versionFromJson ver
    | none => .ok kCurrentIrVersion
  let tensors ← arrayField tensorFromJson root "tensors" "tensors"
  let nodes ← arrayField nodeFromJson root "nodes" "nodes"
  let inputs ← arrayField (number (castUnsigned 64) "inputs ids") root "inputs" "inputs"
  let outputs ← arrayField (number (castUnsigned 64) "outputs ids") root "outputs" "outputs"
  .ok ⟨version, strField root "name" "", strField root "producer" "", strField root "domain" "uaii", tensors, nodes, inputs,
    outputs, metadataFromJson root⟩

def graphFromJson (text : String) : Result (Graph ℚ) := do
  let v ← parse text
  graphOfValue v

/-! ## What comes back of a part -/

/-- The text of `v` is read as `x`. -/
def ReadsBack {α : Type} (v : Value) (dec : Value → Result α) (x : α) : Prop := ∃ w, rereadValue v = some w ∧ dec w = .ok x

section Parts

variable {α β : Type}

theorem bind_ok_iff {r : Result α} {f : α → Result β} {y : β} : r >>= f = .ok y ↔ ∃ x, r = .ok x ∧ f x = .ok y := by
  apply Iff.intro bind_ok
  rintro ⟨x, rfl, h⟩
  exact h

theorem rereadItems_cons {v : Value} {vs ws : List Value} :
    rereadItems (v :: vs) = some ws ↔ ∃ w, rereadValue v = some w ∧ ∃ ws', rereadItems vs = some ws' ∧ w :: ws' = ws := by
  simp only [rereadItems, Option.bind_eq_some_iff, Option.map_eq_some_iff]

theorem rereadFields_cons {key : String} {v : Value} {kvs o : List (String × Value)} :
    rereadFields ((key, v) :: kvs) = some o ↔
      ∃ w, rereadValue v = some w ∧ ∃ o', rereadFields kvs = some o' ∧ (key, w) :: o' = o := by
  simp only [rereadFields, Option.bind_eq_some_iff, Option.map_eq_some_iff]

theorem obj_readsBack {kvs : List (String × Value)} {dec : Value → Result α} {x : α} :
    ReadsBack (.obj kvs) dec x ↔ ∃ o, rereadFields kvs = some o ∧ dec (.obj o) = .ok x := by
  simp only [ReadsBack, rereadValue, Option.map_eq_some_iff]
  apply Iff.intro
  · rintro ⟨_, ⟨o, ho, rfl⟩, hdec⟩
    exact ⟨o, ho, hdec⟩
  · rintro ⟨o, ho, hdec⟩
    exact ⟨.obj o, ⟨o, ho, rfl⟩, hdec⟩

/-- A part of the result. -/
theorem map_readsBack {v : Value} {dec : Value → Result α} {f : α → β} (hf : f.Injective) {x : α} :
    ReadsBack v (fun w => do let y ← dec w; .ok (f y)) (f x) ↔ ReadsBack v dec x := by
  apply Iff.intro
  · rintro ⟨w, hw, hdec⟩
    rcases bind_ok hdec with ⟨y, hy, hfy⟩
    rw [hf (Except.ok.inj hfy)] at hy
    exact ⟨w, hw, hy⟩
  · rintro ⟨w, hw, hdec⟩
    refine ⟨w, hw, ?_⟩
    show (dec w >>= fun y => .ok (f y)) = _
    rw [hdec]
    rfl

/-- An array is read back when its items are. -/
theorem array_readsBack {enc : α → Value} {dec : Value → Result α} {ctx : String} {xs : List α} :
    ReadsBack (.arr (xs.map enc)) (arrayItems dec ctx) xs ↔ ∀ x ∈ xs, ReadsBack (enc x) dec x := by
  have hitems : (∃ ws, rereadItems (xs.map enc) = some ws ∧ ws.mapM dec = .ok xs) ↔ ∀ x ∈ xs, ReadsBack (enc x) dec x := by
    induction xs with
    | nil => simp [rereadItems, pure, Except.pure]
    | cons x xs ih =>
      rw [List.map_cons, List.forall_mem_cons, ← ih]
      apply Iff.intro
      · rintro ⟨ws, hws, hdec⟩
        rcases rereadItems_cons.mp hws with ⟨w, hw, ws', hws', rfl⟩
        rw [List.mapM_cons] at hdec
        rcases bind_ok hdec with ⟨y, hy, hdec⟩
        rcases bind_ok hdec with ⟨ys, hys, hdec⟩
        cases hdec
        exact ⟨⟨w, hw, hy⟩, ws', hws', hys⟩
      · rintro ⟨⟨w, hw, hx⟩, ws, hws, hxs⟩
        refine ⟨w :: ws, rereadItems_cons.mpr ⟨w, hw, ws, hws, rfl⟩, ?_⟩
        rw [List.mapM_cons, hx, ok_bind, hxs]
        rfl
  rw [← hitems]
  apply Iff.intro
  · rintro ⟨w, hw, hdec⟩
    rw [rereadValue] at hw
    rcases Option.map_eq_some_iff.mp hw with ⟨ws, hws, rfl⟩
    exact ⟨ws, hws, hdec⟩
  · rintro ⟨ws, hws, hdec⟩
    refine ⟨.arr ws, ?_, hdec⟩
    rw [rereadValue, hws]
    rfl

theorem num_readsBack {x : ℚ} {cast : ℚ → Result α} {msg : String} {y : α} :
    ReadsBack (.num x) (number cast msg) y ↔ ∃ x', reread x = some x' ∧ cast x' = .ok y := by
  apply Iff.intro
  · rintro ⟨w, hw, hdec⟩
    rw [rereadValue] at hw
    rcases Option.map_eq_some_iff.mp hw with ⟨x', hx', rfl⟩
    exact ⟨x', hx', hdec⟩
  · rintro ⟨x', hx', hdec⟩
    refine ⟨.num x', ?_, hdec⟩
    rw [rereadValue, hx']
    rfl

theorem float_readsBack {x : ℚ} {msg : String} : ReadsBack (.num x) (number .ok msg) x ↔ Survives x := by
  rw [num_readsBack, ← reread_iff]
  simp

theorem int_reread {n : Int} {cast : ℚ → Result α} {y : α} (hcast : ∀ m : Int, cast m = .ok y ↔ m = n) :
    (∃ x', reread n = some x' ∧ cast x' = .ok y) ↔ Survives n := by
  rw [← reread_iff]
  apply Iff.intro
  · rintro ⟨x', hx', hdec⟩
    rcases reread_int hx' with ⟨m, rfl⟩
    rw [(hcast m).mp hdec] at hx'
    exact hx'
  · exact fun h => ⟨n, h, (hcast n).mpr rfl⟩

theorem int_readsBack {n : Int} {msg : String} (hn : |n| ≤ 2 ^ 53) :
    ReadsBack (intToJson n) (number castI64 msg) n ↔ Survives n := by
  rw [intToJson, toDouble_int hn, num_readsBack]
  exact int_reread fun m => castI64_int (by have := neg_abs_le n; omega) (by have := le_abs_self n; omega)

theorem id_readsBack {bits id : Nat} {msg : String} (hid : id ≤ 2 ^ 53) (hbits : id < 2 ^ bits) :
    ReadsBack (idToJson id) (number (castUnsigned bits) msg) id ↔ Survives id := by
  have habs : |(id : Int)| ≤ 2 ^ 53 := by
    rw [Nat.abs_cast]
    exact_mod_cast hid
  rw [idToJson, intToJson, toDouble_int habs, num_readsBack]
  exact_mod_cast int_reread (n := (id : Int)) fun m => castUnsigned_int hbits

end Parts

/-! ## Graphs in range -/

def IntInRange (n : Int) : Prop := |n| ≤ 2 ^ 53

def IdInRange (id : Nat) : Prop := id ≤ 2 ^ 53

def ValueInRange : AttributeValue ℚ → Prop
  | .int n => IntInRange n
  | .intArray ns => ∀ n ∈ ns, IntInRange n
  | _ => True

structure TensorInRange (t : Tensor) : Prop where
  id : IdInRange t.id
  shape : ∀ d ∈ t.shape, IntInRange d

structure NodeInRange (n : Node ℚ) : Prop where
  id : IdInRange n.id
  inputs : ∀ id ∈ n.inputs, IdInRange id
  outputs : ∀ id ∈ n.outputs, IdInRange id
  attributes : ∀ a ∈ n.attributes, ValueInRange a.value

/-- Ids, dimensions and integers of at most `2 ^ 53`, a version of two 32-bit words, and a map. -/
structure GraphInRange (g : Graph ℚ) : Prop where
  major : g.version.major < 2 ^ 32
  minor : g.version.minor < 2 ^ 32
  tensors : ∀ t ∈ g.tensors, TensorInRange t
  nodes : ∀ n ∈ g.nodes, NodeInRange n
  inputs : ∀ id ∈ g.inputs, IdInRange id
  outputs : ∀ id ∈ g.outputs, IdInRange id
  keys : (g.metadata.map (·.1)).Nodup

def valueNumbers : AttributeValue ℚ → List ℚ
  | .int n => [(n : ℚ)]
  | .float x => [x]
  | .intArray ns => ns.map fun n : Int => (n : ℚ)
  | .floatArray xs => xs
  | _ => []

def idNumbers (ids : List Nat) : List ℚ := ids.map fun id : Nat => (id : ℚ)

def tensorNumbers (t : Tensor) : List ℚ := (t.id : ℚ) :: t.shape.map fun d : Int => (d : ℚ)

def nodeNumbers (n : Node ℚ) : List ℚ :=
  (n.id : ℚ) :: (idNumbers n.inputs ++ idNumbers n.outputs ++ n.attributes.flatMap fun a => valueNumbers a.value)

/-- The numbers of a graph, but for its version. -/
def numbers (g : Graph ℚ) : List ℚ :=
  g.tensors.flatMap tensorNumbers ++ g.nodes.flatMap nodeNumbers ++ idNumbers g.inputs ++ idNumbers g.outputs

/-! ## Parts of a graph -/

theorem set_before {key key' : String} {v v' : Value} {o : Object} (h : key < key') :
    Object.set ((key', v') :: o) key v = (key, v) :: (key', v') :: o := by
  rw [Object.set, if_pos h]

theorem set_after {key key' : String} {v v' : Value} {o : Object} (h : key' < key) :
    Object.set ((key', v') :: o) key v = (key', v') :: Object.set o key v := by
  rw [Object.set, if_neg (lt_asymm h), if_pos h]

theorem set_nil {key : String} {v : Value} : Object.set [] key v = [(key, v)] := rfl

theorem ids_readsBack {ids : List Nat} {ctx msg : String} (h : ∀ id ∈ ids, IdInRange id) :
    ReadsBack (.arr (ids.map idToJson)) (arrayItems (number (castUnsigned 64) msg) ctx) ids ↔ ∀ x ∈ idNumbers ids, Survives x := by
  rw [array_readsBack, idNumbers, List.forall_mem_map]
  refine forall₂_congr fun id hid => id_readsBack (h id hid) ?_
  have hle : id ≤ 2 ^ 53 := h id hid
  omega

theorem ints_readsBack {ns : List Int} {ctx msg : String} (h : ∀ n ∈ ns, IntInRange n) :
    ReadsBack (.arr (ns.map intToJson)) (arrayItems (number castI64 msg) ctx) ns ↔
      ∀ x ∈ ns.map (fun n : Int => (n : ℚ)), Survives x := by
  rw [array_readsBack, List.forall_mem_map]
  exact forall₂_congr fun n hn => int_readsBack (h n hn)

theorem value_readsBack {v : AttributeValue ℚ} (h : ValueInRange v) :
    ReadsBack (valueToJson v) (valueFromJson (attributeTypeName v)) v ↔ ∀ x ∈ valueNumbers v, Survives x := by
  cases v with
  | string s => simp [ReadsBack, valueToJson, rereadValue, valueFromJson, attributeTypeName, valueNumbers]
  | int n =>
    refine (map_readsBack fun _ _ h => AttributeValue.int.inj h).trans ((int_readsBack h).trans ?_)
    simp [valueNumbers]
  | float x =>
    refine (map_readsBack fun _ _ h => AttributeValue.float.inj h).trans (float_readsBack.trans ?_)
    simp [valueNumbers]
  | bool b => simp [ReadsBack, valueToJson, rereadValue, valueFromJson, attributeTypeName, valueNumbers]
  | intArray ns => exact (map_readsBack fun _ _ h => AttributeValue.intArray.inj h).trans (ints_readsBack h)
  | floatArray xs =>
    refine (map_readsBack fun _ _ h => AttributeValue.floatArray.inj h).trans (array_readsBack.trans ?_)
    exact forall₂_congr fun x _ => float_readsBack

theorem rereadFields_nil {o : Object} : rereadFields [] = some o ↔ o = [] := by
  simp [rereadFields, eq_comm]

theorem rereadValue_str {s : String} {w : Value} : rereadValue (.str s) = some w ↔ w = .str s := by
  simp [rereadValue, eq_comm]

theorem rereadValue_bool {b : Bool} {w : Value} : rereadValue (.bool b) = some w ↔ w = .bool b := by
  simp [rereadValue, eq_comm]

theorem attrToJson_fields (a : Attribute ℚ) : attrToJson a =
    .obj [("key", .str a.key), ("type", .str (attributeTypeName a.value)), ("value", valueToJson a.value)] := by
  simp (disch := decide) only [attrToJson, objectOf, List.foldl_cons, List.foldl_nil, set_after, set_nil]

theorem attrFromJson_fields (key t : String) (w : Value) :
    attrFromJson (.obj [("key", .str key), ("type", .str t), ("value", w)]) = (do let x ← valueFromJson t w; .ok ⟨key, x⟩) := rfl

theorem attr_readsBack {a : Attribute ℚ} (h : ValueInRange a.value) :
    ReadsBack (attrToJson a) attrFromJson a ↔ ∀ x ∈ valueNumbers a.value, Survives x := by
  rw [← value_readsBack h, attrToJson_fields, obj_readsBack]
  obtain ⟨key, v⟩ := a
  simp only [rereadFields_cons, rereadFields_nil, rereadValue_str, existsAndEq, true_and, exists_exists_and_eq_and,
    attrFromJson_fields, bind_ok_iff, Except.ok.injEq, Attribute.mk.injEq, exists_eq_right]
  rfl

theorem tensorToJson_fields (t : Tensor) : tensorToJson t =
    .obj [("dtype", .str t.dtype.toString), ("id", idToJson t.id), ("is_weight", .bool t.isWeight), ("name", .str t.name),
      ("quant_format", .str t.quantFormat.toString), ("shape", shapeToJson t.shape), ("storage_hint", .str t.storageHint.toString),
      ("weight_ref", .str t.weightRef)] := by
  simp (disch := decide) only [tensorToJson, objectOf, List.foldl_cons, List.foldl_nil, set_before, set_after, set_nil]

theorem tensorFromJson_fields (t : Tensor) (id shape : Value) :
    tensorFromJson (.obj [("dtype", .str t.dtype.toString), ("id", id), ("is_weight", .bool t.isWeight), ("name", .str t.name),
      ("quant_format", .str t.quantFormat.toString), ("shape", shape), ("storage_hint", .str t.storageHint.toString),
      ("weight_ref", .str t.weightRef)]) = (do
        let id ← number (castUnsigned 64) "tensor.id required" id
        let shape ← shapeFromJson shape
        .ok { t with id := id, shape := shape }) := by
  simp [tensorFromJson, requireObject, numberField, namedField, strField, boolField, Object.get]

theorem tensor_readsBack {t : Tensor} (h : TensorInRange t) :
    ReadsBack (tensorToJson t) tensorFromJson t ↔ ∀ x ∈ tensorNumbers t, Survives x := by
  have hid : t.id < 2 ^ 64 := lt_of_le_of_lt h.id (by decide)
  have hparts : ReadsBack (tensorToJson t) tensorFromJson t ↔
      ReadsBack (idToJson t.id) (number (castUnsigned 64) "tensor.id required") t.id ∧
        ReadsBack (shapeToJson t.shape) shapeFromJson t.shape := by
    rw [tensorToJson_fields, obj_readsBack]
    simp only [rereadFields_cons, rereadFields_nil, rereadValue_str, rereadValue_bool, existsAndEq, and_true, true_and,
      exists_exists_and_eq_and, tensorFromJson_fields, bind_ok_iff]
    apply Iff.intro
    · rintro ⟨id, shape, ⟨hid, hshape⟩, x, hx, y, hy, heq⟩
      have ht := Except.ok.inj heq
      exact ⟨⟨id, hid, congrArg Tensor.id ht ▸ hx⟩, shape, hshape, congrArg Tensor.shape ht ▸ hy⟩
    · rintro ⟨⟨id, hid, hx⟩, shape, hshape, hy⟩
      exact ⟨id, shape, ⟨hid, hshape⟩, t.id, hx, t.shape, hy, rfl⟩
  rw [hparts, tensorNumbers, List.forall_mem_cons, id_readsBack h.id hid]
  exact and_congr_right fun _ => ints_readsBack h.shape

theorem nodeToJson_fields (n : Node ℚ) : nodeToJson n =
    .obj [("attributes", .arr (n.attributes.map attrToJson)), ("id", idToJson n.id), ("inputs", .arr (n.inputs.map idToJson)),
      ("name", .str n.name), ("op_name", .str n.opName), ("op_version", .str n.opVersion),
      ("outputs", .arr (n.outputs.map idToJson))] := by
  simp (disch := decide) only [nodeToJson, objectOf, List.foldl_cons, List.foldl_nil, set_before, set_after, set_nil]

theorem nodeFromJson_fields (n : Node ℚ) (attributes id inputs outputs : Value) :
    nodeFromJson (.obj [("attributes", attributes), ("id", id), ("inputs", inputs), ("name", .str n.name),
      ("op_name", .str n.opName), ("op_version", .str n.opVersion), ("outputs", outputs)]) = (do
        let id ← number (castUnsigned 64) "node.id required" id
        let inputs ← arrayItems (number (castUnsigned 64) "node.inputs id") "node.inputs" inputs
        let outputs ← arrayItems (number (castUnsigned 64) "node.outputs id") "node.outputs" outputs
        let attributes ← arrayItems attrFromJson "node.attributes" attributes
        .ok { n with id := id, inputs := inputs, outputs := outputs, attributes := attributes }) := rfl

theorem node_readsBack {n : Node ℚ} (h : NodeInRange n) :
    ReadsBack (nodeToJson n) nodeFromJson n ↔ ∀ x ∈ nodeNumbers n, Survives x := by
  have hid : n.id < 2 ^ 64 := lt_of_le_of_lt h.id (by decide)
  have hparts : ReadsBack (nodeToJson n) nodeFromJson n ↔
      ReadsBack (idToJson n.id) (number (castUnsigned 64) "node.id required") n.id ∧
        ReadsBack (.arr (n.inputs.map idToJson)) (arrayItems (number (castUnsigned 64) "node.inputs id") "node.inputs") n.inputs ∧
        ReadsBack (.arr (n.outputs.map idToJson)) (arrayItems (number (castUnsigned 64) "node.outputs id") "node.outputs")
          n.outputs ∧
        ReadsBack (.arr (n.attributes.map attrToJson)) (arrayItems attrFromJson "node.attributes") n.attributes := by
    rw [nodeToJson_fields, obj_readsBack]
    simp only [rereadFields_cons, rereadFields_nil, rereadValue_str, existsAndEq, and_true, true_and, exists_exists_and_eq_and,
      nodeFromJson_fields, bind_ok_iff]
    apply Iff.intro
    · rintro ⟨attrs, id, ins, outs, ⟨hattrs, hid, hins, houts⟩, x, hx, xs, hxs, ys, hys, as, has, heq⟩
      have hn := Except.ok.inj heq
      exact ⟨⟨id, hid, congrArg Node.id hn ▸ hx⟩, ⟨ins, hins, congrArg Node.inputs hn ▸ hxs⟩,
        ⟨outs, houts, congrArg Node.outputs hn ▸ hys⟩, attrs, hattrs, congrArg Node.attributes hn ▸ has⟩
    · rintro ⟨⟨id, hid, hx⟩, ⟨ins, hins, hxs⟩, ⟨outs, houts, hys⟩, attrs, hattrs, has⟩
      exact ⟨attrs, id, ins, outs, ⟨hattrs, hid, hins, houts⟩, n.id, hx, n.inputs, hxs, n.outputs, hys, n.attributes, has, rfl⟩
  rw [hparts, nodeNumbers, List.forall_mem_cons, List.forall_mem_append, List.forall_mem_append, List.forall_mem_flatMap,
    id_readsBack h.id hid, ids_readsBack h.inputs, ids_readsBack h.outputs, array_readsBack, and_assoc]
  exact and_congr_right fun _ => and_congr_right fun _ => and_congr_right fun _ =>
    forall₂_congr fun a ha => attr_readsBack (h.attributes a ha)

theorem survives_id {n : Nat} (hn : n < 10 ^ 15) : Survives n := by
  refine Or.inl ⟨?_, ?_⟩
  · rw [Int.floor_natCast, Int.cast_natCast]
  · rw [Nat.abs_cast]
    exact_mod_cast hn

theorem versionToJson_fields (v : IrVersion) :
    versionToJson v = .obj [("major", idToJson v.major), ("minor", idToJson v.minor)] := by
  simp (disch := decide) only [versionToJson, objectOf, List.foldl_cons, List.foldl_nil, set_after, set_nil]

theorem version_readsBack {v : IrVersion} (hmajor : v.major < 2 ^ 32) (hminor : v.minor < 2 ^ 32) :
    ReadsBack (versionToJson v) versionFromJson v := by
  have hword : ∀ n : Nat, n < 2 ^ 32 → rereadValue (idToJson n) = some (.num n) ∧ castUnsigned 32 n = .ok n := by
    intro n hn
    have habs : |(n : Int)| ≤ 2 ^ 53 := by
      rw [Nat.abs_cast]
      exact_mod_cast (by omega : n ≤ 2 ^ 53)
    have hback := reread_iff.mpr (survives_id (n := n) (by omega))
    have hcast := (castUnsigned_int (n := (n : Int)) hn).mpr rfl
    rw [idToJson, intToJson, toDouble_int habs]
    rw [Int.cast_natCast] at hcast ⊢
    exact ⟨by rw [rereadValue, hback]; rfl, hcast⟩
  obtain ⟨hma, hcma⟩ := hword v.major hmajor
  obtain ⟨hmi, hcmi⟩ := hword v.minor hminor
  rw [versionToJson_fields, obj_readsBack]
  refine ⟨[("major", .num v.major), ("minor", .num v.minor)], ?_, ?_⟩
  · rw [rereadFields, rereadFields, hma, hmi]
    rfl
  · show (castUnsigned 32 v.major >>= fun major => castUnsigned 32 v.minor >>= fun minor =>
      .ok (⟨major, minor⟩ : IrVersion)) = _
    rw [hcma, hcmi]
    rfl

/-! ## Objects -/

theorem mem_set {key : String} {v : Value} {o : Object} {kv : String × Value} (h : kv ∈ o.set key v) : kv = (key, v) ∨ kv ∈ o := by
  induction o with
  | nil => exact Or.inl (List.mem_singleton.mp h)
  | cons kv' o ih =>
    rw [Object.set] at h
    split at h
    · rcases List.mem_cons.mp h with h | h
      · exact Or.inl h
      · exact Or.inr h
    · split at h
      · rcases List.mem_cons.mp h with rfl | h
        · exact Or.inr List.mem_cons_self
        · exact (ih h).imp_right (List.mem_cons_of_mem _)
      · rcases List.mem_cons.mp h with h | h
        · exact Or.inl h
        · exact Or.inr (List.mem_cons_of_mem _ h)

theorem set_sorted {key : String} {v : Value} {o : Object} (h : (o.map (·.1)).Pairwise (· < ·)) :
    ((o.set key v).map (·.1)).Pairwise (· < ·) := by
  induction o with
  | nil => exact List.pairwise_singleton _ _
  | cons kv' o ih =>
    obtain ⟨hfirst, hrest⟩ := List.pairwise_cons.mp h
    rw [Object.set]
    split
    · rename_i hlt
      refine List.pairwise_cons.mpr ⟨fun k hk => ?_, h⟩
      rcases List.mem_cons.mp hk with rfl | hk
      · exact hlt
      · exact hlt.trans (hfirst k hk)
    · split
      · rename_i hlt
        refine List.pairwise_cons.mpr ⟨fun k hk => ?_, ih hrest⟩
        rcases List.mem_map.mp hk with ⟨kv, hkv, rfl⟩
        rcases mem_set hkv with rfl | hkv
        · exact hlt
        · exact hfirst _ (List.mem_map_of_mem hkv)
      · rename_i hnlt hngt
        rw [le_antisymm (not_lt.mp hngt) (not_lt.mp hnlt)]
        exact List.pairwise_cons.mpr ⟨hfirst, hrest⟩

theorem set_perm {key : String} {v : Value} {o : Object} (h : key ∉ o.map (·.1)) : (o.set key v).Perm ((key, v) :: o) := by
  induction o with
  | nil => exact .refl _
  | cons kv' o ih =>
    rw [List.map_cons, List.mem_cons, not_or] at h
    rw [Object.set]
    split
    · exact .refl _
    · split
      · exact ((ih h.2).cons kv').trans (.swap _ _ _)
      · rename_i hnlt hngt
        exact absurd (le_antisymm (not_lt.mp hngt) (not_lt.mp hnlt)) h.1

/-- A map built field by field has its keys in order. -/
theorem sorted_objectOf {kvs : List (String × Value)} (h : ∀ kv ∈ kvs, Sorted kv.2) : Sorted (.obj (objectOf kvs)) := by
  have hfold : ∀ {kvs : List (String × Value)} {o : Object}, (∀ kv ∈ kvs, Sorted kv.2) → (o.map (·.1)).Pairwise (· < ·) →
      (∀ kv ∈ o, Sorted kv.2) → Sorted (.obj (kvs.foldl (fun o kv => Object.set o kv.1 kv.2) o)) := by
    intro kvs
    induction kvs with
    | nil => exact fun _ ho hvs => .obj ho hvs
    | cons kv kvs ih =>
      intro o hkvs ho hvs
      rw [List.forall_mem_cons] at hkvs
      refine ih hkvs.2 (set_sorted ho) fun kv' hkv' => ?_
      rcases mem_set hkv' with rfl | hkv'
      · exact hkvs.1
      · exact hvs kv' hkv'
  exact hfold h .nil fun kv hkv => absurd hkv List.not_mem_nil

theorem objectOf_perm {kvs : List (String × Value)} (h : (kvs.map (·.1)).Nodup) : (objectOf kvs).Perm kvs := by
  have hfold : ∀ (kvs : List (String × Value)) {o : Object}, ((kvs ++ o).map (·.1)).Nodup →
      (kvs.foldl (fun o kv => Object.set o kv.1 kv.2) o).Perm (kvs ++ o) := by
    intro kvs
    induction kvs with
    | nil => exact fun _ => .refl _
    | cons kv kvs ih =>
      intro o hnd
      rw [List.cons_append, List.map_cons, List.nodup_cons] at hnd
      have hset : (Object.set o kv.1 kv.2).Perm (kv :: o) := set_perm fun hmem => hnd.1 (by
        rw [List.map_append]
        exact List.mem_append_right _ hmem)
      have hmid : (kvs ++ Object.set o kv.1 kv.2).Perm (kv :: (kvs ++ o)) := (hset.append_left kvs).trans List.perm_middle
      refine (ih ?_).trans hmid
      rw [(hmid.map _).nodup_iff, List.map_cons, List.nodup_cons]
      exact hnd
  have hall := hfold kvs (o := []) (by rwa [List.append_nil])
  rwa [List.append_nil] at hall

theorem graphValue_sorted (g : Graph ℚ) : Sorted (graphValue g) := by
  have hids : ∀ ids : List Nat, Sorted (.arr (ids.map idToJson)) := by
    intro ids
    refine .arr (List.forall_mem_map.mpr fun id _ => .num _)
  have hints : ∀ ns : List Int, Sorted (.arr (ns.map intToJson)) := by
    intro ns
    refine .arr (List.forall_mem_map.mpr fun n _ => .num _)
  have hvalue : ∀ v, Sorted (valueToJson v) := by
    intro v
    cases v with
    | string s => exact .str s
    | int n => exact .num _
    | float x => exact .num x
    | bool b => exact .bool b
    | intArray ns => exact hints ns
    | floatArray xs => exact .arr (List.forall_mem_map.mpr fun x _ => .num x)
  have hattr : ∀ a, Sorted (attrToJson a) := by
    intro a
    refine sorted_objectOf ?_
    simp only [List.forall_mem_cons]
    exact ⟨.str _, .str _, hvalue _, by simp⟩
  have htensor : ∀ t, Sorted (tensorToJson t) := by
    intro t
    refine sorted_objectOf ?_
    simp only [List.forall_mem_cons]
    exact ⟨.num _, .str _, .str _, hints _, .str _, .bool _, .str _, .str _, by simp⟩
  have hnode : ∀ n, Sorted (nodeToJson n) := by
    intro n
    refine sorted_objectOf ?_
    simp only [List.forall_mem_cons]
    exact ⟨.num _, .str _, .str _, .str _, hids _, hids _, .arr (List.forall_mem_map.mpr fun a _ => hattr a), by simp⟩
  have hversion : ∀ v, Sorted (versionToJson v) := by
    intro v
    refine sorted_objectOf ?_
    simp only [List.forall_mem_cons]
    exact ⟨.num _, .num _, by simp⟩
  refine sorted_objectOf ?_
  simp only [List.forall_mem_cons]
  exact ⟨hversion _, .str _, .str _, .str _, .arr (List.forall_mem_map.mpr fun t _ => htensor t),
    .arr (List.forall_mem_map.mpr fun n _ => hnode n), hids _, hids _,
    sorted_objectOf (List.forall_mem_map.mpr fun kv _ => .str _), by simp⟩

/-! ## Graphs -/

def strEntry (kv : String × String) : String × Value := (kv.1, .str kv.2)

/-- The strings of a map are read as they are. -/
theorem metadata_reread {m : List (String × String)} (h : (m.map (·.1)).Nodup) :
    ∃ o, rereadValue (metadataToJson m) = some (.obj o) ∧ (metadataOf (o.filterMap metadataEntry)).Perm m := by
  have hkeys : ((m.map strEntry).map (·.1)).Nodup := by
    rw [List.map_map]
    exact h
  have hperm := objectOf_perm hkeys
  have hstrs : ∀ kv ∈ objectOf (m.map strEntry), ∃ s, kv.2 = .str s := by
    intro kv hkv
    rcases List.mem_map.mp (hperm.mem_iff.mp hkv) with ⟨e, -, rfl⟩
    exact ⟨e.2, rfl⟩
  have hreread : ∀ o : Object, (∀ kv ∈ o, ∃ s, kv.2 = .str s) → rereadFields o = some o := by
    intro o
    induction o with
    | nil => exact fun _ => rfl
    | cons kv o ih =>
      intro ho
      rw [List.forall_mem_cons] at ho
      obtain ⟨key, v⟩ := kv
      rcases ho.1 with ⟨s, rfl⟩
      rw [rereadFields, ih ho.2]
      rfl
  have hentries : ((objectOf (m.map strEntry)).filterMap metadataEntry).Perm m := by
    have h := hperm.filterMap metadataEntry
    rwa [List.filterMap_map, show metadataEntry ∘ strEntry = some from rfl, List.filterMap_some] at h
  refine ⟨objectOf (m.map strEntry), ?_, ?_⟩
  · show (rereadFields (objectOf (m.map strEntry))).map Value.obj = _
    rw [hreread _ hstrs]
    rfl
  · rwa [metadataOf_nodup ((hentries.map _).nodup_iff.mpr h)]

theorem graphValue_fields (g : Graph ℚ) : graphValue g =
    .obj [("domain", .str g.domain), ("inputs", .arr (g.inputs.map idToJson)), ("ir_version", versionToJson g.version),
      ("metadata", metadataToJson g.metadata), ("name", .str g.name), ("nodes", .arr (g.nodes.map nodeToJson)),
      ("outputs", .arr (g.outputs.map idToJson)), ("producer", .str g.producer), ("tensors", .arr (g.tensors.map tensorToJson))] := by
  simp (disch := decide) only [graphValue, objectOf, List.foldl_cons, List.foldl_nil, set_before, set_after, set_nil]

theorem graphOfValue_fields (g : Graph ℚ) (inputs version nodes outputs tensors : Value) (m : Object) :
    graphOfValue (.obj [("domain", .str g.domain), ("inputs", inputs), ("ir_version", version), ("metadata", .obj m),
      ("name", .str g.name), ("nodes", nodes), ("outputs", outputs), ("producer", .str g.producer), ("tensors", tensors)]) = (do
        let version ← versionFromJson version
        let tensors ← arrayItems tensorFromJson "tensors" tensors
        let nodes ← arrayItems nodeFromJson "nodes" nodes
        let inputs ← arrayItems (number (castUnsigned 64) "inputs ids") "inputs" inputs
        let outputs ← arrayItems (number (castUnsigned 64) "outputs ids") "outputs" outputs
        .ok { g with version := version, tensors := tensors, nodes := nodes, inputs := inputs, outputs := outputs,
                     metadata := metadataOf (m.filterMap metadataEntry) }) := rfl

/-- The code reads its own text as the text's values. -/
theorem graphFromJson_graphToJson (g g' : Graph ℚ) :
    graphFromJson (graphToJson g) = .ok g' ↔ ReadsBack (graphValue g) graphOfValue g' := by
  obtain ⟨hsome, hnone⟩ := parse_stringify true (graphValue_sorted g)
  unfold graphFromJson graphToJson ReadsBack
  cases hw : rereadValue (graphValue g) with
  | none =>
    rcases hnone hw with ⟨e, he⟩
    rw [he]
    simp
  | some w =>
    rw [hsome w hw]
    simp

/-- What has to come back of a graph: the version, the names and the metadata do. -/
theorem comes_back_parts {g : Graph ℚ} (h : GraphInRange g) :
    (∃ g', graphFromJson (graphToJson g) = .ok g' ∧ SameGraph g' g) ↔
      ReadsBack (.arr (g.tensors.map tensorToJson)) (arrayItems tensorFromJson "tensors") g.tensors ∧
        ReadsBack (.arr (g.nodes.map nodeToJson)) (arrayItems nodeFromJson "nodes") g.nodes ∧
        ReadsBack (.arr (g.inputs.map idToJson)) (arrayItems (number (castUnsigned 64) "inputs ids") "inputs") g.inputs ∧
        ReadsBack (.arr (g.outputs.map idToJson)) (arrayItems (number (castUnsigned 64) "outputs ids") "outputs") g.outputs := by
  rcases metadata_reread h.keys with ⟨m, hm, hperm⟩
  simp only [graphFromJson_graphToJson, graphValue_fields, obj_readsBack, rereadFields_cons, rereadFields_nil, rereadValue_str, hm,
    Option.some.injEq, existsAndEq, and_true, true_and, exists_exists_and_eq_and, exists_eq_left', graphOfValue_fields, bind_ok_iff]
  apply Iff.intro
  · rintro ⟨g', ⟨ins, ver, ns, outs, ts, ⟨hins, -, hns, houts, hts⟩, v, -, xs, hxs, ys, hys, is, his, os, hos, heq⟩, hsame⟩
    have hg := (congrArg (fun g => { g with metadata := [] }) (Except.ok.inj heq)).trans hsame.1
    exact ⟨⟨ts, hts, congrArg Graph.tensors hg ▸ hxs⟩, ⟨ns, hns, congrArg Graph.nodes hg ▸ hys⟩,
      ⟨ins, hins, congrArg Graph.inputs hg ▸ his⟩, outs, houts, congrArg Graph.outputs hg ▸ hos⟩
  · rintro ⟨⟨ts, hts, hxs⟩, ⟨ns, hns, hys⟩, ⟨ins, hins, his⟩, outs, houts, hos⟩
    rcases version_readsBack h.major h.minor with ⟨ver, hver, hv⟩
    exact ⟨_, ⟨ins, ver, ns, outs, ts, ⟨hins, hver, hns, houts, hts⟩, g.version, hv, g.tensors, hxs, g.nodes, hys, g.inputs, his,
      g.outputs, hos, rfl⟩, rfl, hperm⟩

/-- A graph comes back as it was exactly when each of its numbers does: an integer below
    `10 ^ 15`, or the double of a decimal of six digits. -/
theorem json_round_trip_iff {g : Graph ℚ} (h : GraphInRange g) :
    (∃ g', graphFromJson (graphToJson g) = .ok g' ∧ SameGraph g' g) ↔ ∀ x ∈ numbers g, Survives x := by
  have htensors : ReadsBack (.arr (g.tensors.map tensorToJson)) (arrayItems tensorFromJson "tensors") g.tensors ↔
      ∀ t ∈ g.tensors, ∀ x ∈ tensorNumbers t, Survives x :=
    array_readsBack.trans (forall₂_congr fun t ht => tensor_readsBack (h.tensors t ht))
  have hnodes : ReadsBack (.arr (g.nodes.map nodeToJson)) (arrayItems nodeFromJson "nodes") g.nodes ↔
      ∀ n ∈ g.nodes, ∀ x ∈ nodeNumbers n, Survives x :=
    array_readsBack.trans (forall₂_congr fun n hn => node_readsBack (h.nodes n hn))
  rw [comes_back_parts h, htensors, hnodes, ids_readsBack h.inputs, ids_readsBack h.outputs, numbers, List.forall_mem_append,
    List.forall_mem_append, List.forall_mem_append, List.forall_mem_flatMap, List.forall_mem_flatMap, and_assoc, and_assoc]

/-- A node with a number for its attribute. -/
def normGraph (eps : ℚ) : Graph ℚ :=
  ⟨kCurrentIrVersion, "norm", "", "uaii",
    [⟨1, "x", .f32, [4], .unspecified, false, "", .f32⟩, ⟨2, "y", .f32, [4], .unspecified, false, "", .f32⟩],
    [⟨1, "norm", "RMSNorm", "1", [1], [2], [⟨"eps", .float eps⟩]⟩], [1], [2], [("arch", "llama")]⟩

theorem normGraph_inRange (eps : ℚ) : GraphInRange (normGraph eps) where
  major := by
    show 1 < 2 ^ 32
    omega
  minor := by
    show 0 < 2 ^ 32
    omega
  tensors := by
    intro t ht
    simp only [normGraph, List.mem_cons, List.not_mem_nil, or_false] at ht
    rcases ht with rfl | rfl <;> exact ⟨by simp [IdInRange], by simp [IntInRange]⟩
  nodes := by
    intro n hn
    rw [List.mem_singleton.mp hn]
    exact ⟨by simp [IdInRange], by simp [IdInRange], by simp [IdInRange], by simp [ValueInRange]⟩
  inputs := by simp [normGraph, IdInRange]
  outputs := by simp [normGraph, IdInRange]
  keys := by simp [normGraph]

/-- `1e-05` comes back. -/
theorem norm_eps_comes_back : ∃ g', graphFromJson (graphToJson (normGraph (toDouble (1 / 100000)))) = .ok g' ∧
    SameGraph g' (normGraph (toDouble (1 / 100000))) := by
  refine (json_round_trip_iff (normGraph_inRange _)).mpr ?_
  have hstod : stod (1 / 100000) = some (toDouble (1 / 100000)) := by decide +kernel
  have heps : Survives (toDouble (1 / 100000)) := Or.inr ⟨_, ⟨1, -5, by decide, by norm_num⟩, hstod⟩
  have hone : Survives 1 := by exact_mod_cast survives_id (n := 1) (by decide)
  have htwo : Survives 2 := by exact_mod_cast survives_id (n := 2) (by decide)
  have hfour : Survives 4 := by exact_mod_cast survives_id (n := 4) (by decide)
  generalize toDouble (1 / 100000) = eps at heps
  simp [numbers, normGraph, tensorNumbers, nodeNumbers, idNumbers, valueNumbers, heps, hone, htwo, hfour]

/-- The float nearest to `1e-05` is printed as `1e-05`, which is read as the double nearest to it. -/
theorem norm_float_eps_is_lost :
    ¬ ∀ g : Graph ℚ, GraphInRange g → ∃ g', graphFromJson (graphToJson g) = .ok g' ∧ SameGraph g' g := by
  intro hall
  have hnodes := ((comes_back_parts (normGraph_inRange _)).mp (hall _ (normGraph_inRange (10995116 / 2 ^ 40)))).2.1
  have hnode := array_readsBack.mp hnodes _ List.mem_cons_self
  have heps : Survives (10995116 / 2 ^ 40) := by
    refine (node_readsBack ((normGraph_inRange _).nodes _ List.mem_cons_self)).mp hnode _ ?_
    simp [nodeNumbers, idNumbers, valueNumbers]
  have hlost : reread (10995116 / 2 ^ 40) ≠ some (10995116 / 2 ^ 40) := by decide +kernel
  exact hlost (reread_iff.mpr heps)

end Uaii.Ir
