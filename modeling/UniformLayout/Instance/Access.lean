import UniformLayout.Error
import UniformLayout.Instance

/-!
# Reading and writing instances

Fields are reached by name, array elements by an index, and nested instances by a path of such
steps. A write that is refused changes nothing; one that is accepted stores the value and sets the
element's dirty flag.

Main statement: `StructInstance.updateAt_nil`.
-/

namespace UniformLayout

namespace FieldSchema

/-- The error of an access that the field's type does not allow. -/
def mismatch (field : FieldSchema) (found : String) : AccessError :=
  .typeMismatch field.name field.displayType found

def checkBounds (field : FieldSchema) (element : Nat) : Except AccessError Unit :=
  if element < field.length then .ok ()
  else .error (.indexOutOfRange field.name element field.length)

def checkElement (field : FieldSchema) (element : Nat) : Except AccessError Unit :=
  if field.isArray then field.checkBounds element else .error (.notAnArray field.name)

/-- Accepts an element of an array, or the whole of a field that is not one; `wanted` says what is
expected of the latter. Gives the index of the element. -/
def position (field : FieldSchema) (element : Option Nat) (wanted : String) :
    Except AccessError Nat :=
  match element with
  | some index => do
    field.checkElement index
    return index
  | none => if field.isArray then .error (field.mismatch wanted) else .ok 0

end FieldSchema

/-- A field with its position, schema and state. -/
structure FieldView where
  index : Nat
  schema : FieldSchema
  state : FieldState

/-- One step of a path: a field that holds an instance, or an element of one that holds several. -/
structure PathStep where
  field : String
  element : Option Nat
  deriving DecidableEq, Repr, Inhabited

namespace StructInstance

def typeName (inst : StructInstance) : String := inst.schema.name

def lookup (inst : StructInstance) (name : String) : Except AccessError FieldView :=
  let found : Option FieldView := do
    let index ← inst.schema.fieldIndex? name
    return ⟨index, ← inst.schema.fields[index]?, ← inst.fields[index]?⟩
  match found with
  | some view => .ok view
  | none => .error (.noSuchField inst.typeName name)

def setState (inst : StructInstance) (index : Nat) (state : FieldState) : StructInstance :=
  { inst with fields := inst.fields.set index state }

/-- An attached instance accepts writes only to fields with a location. -/
def checkLocated (inst : StructInstance) (view : FieldView) : Except AccessError Unit :=
  if inst.attached && view.state.location.isNone then .error (.unlocatedField view.schema.name)
  else .ok ()

/-! ## Locations and texture units -/

def location (inst : StructInstance) (name : String) : Except AccessError (Option Nat) := do
  return (← inst.lookup name).state.location

/-- Gives a location to a field that does not hold instances. -/
def locate (inst : StructInstance) (name : String) (location : Nat) :
    Except AccessError StructInstance := do
  let view ← inst.lookup name
  match view.schema.kind with
  | .aggregate _ => throw (view.schema.mismatch "a leaf location")
  | _ => return inst.setState view.index { view.state with location := some location }

/-- The texture unit of an element, where the field has units. -/
def textureUnit (inst : StructInstance) (name : String) (element : Nat) :
    Except AccessError (Option Nat) := do
  let view ← inst.lookup name
  view.schema.checkBounds element
  return view.state.unit.map (· + element)

/-! ## Values -/

/-- The value of a field, or of an element of an array. -/
def get (inst : StructInstance) (name : String) (element : Option Nat) :
    Except AccessError UniformValue := do
  let view ← inst.lookup name
  let index ← view.schema.position element "a single value"
  match view.state.contents with
  | .values list =>
    match list[index]? with
    | some value => return value
    | none => throw (.indexOutOfRange name index list.length)
  | _ => throw (view.schema.mismatch "a value")

/-- A value of the field's own type with the right number of components. -/
def accepts (field : FieldSchema) (value : UniformValue) : Bool :=
  match field.kind with
  | .value type => value.baseType == type && value.isWellFormed
  | _ => false

/-- Stores a value in a field, or in an element of an array. -/
def set (inst : StructInstance) (name : String) (element : Option Nat) (value : UniformValue) :
    Except AccessError StructInstance := do
  let view ← inst.lookup name
  let index ← view.schema.position element "a single value"
  if !accepts view.schema value then throw (view.schema.mismatch value.describe)
  inst.checkLocated view
  match view.state.contents with
  | .values list =>
    return inst.setState view.index
      { view.state with
        contents := .values (list.set index value), dirty := view.state.dirty.set index true }
  | _ => return inst

/-! ## Handles -/

def handle (inst : StructInstance) (name : String) (element : Nat) :
    Except AccessError (Option TextureHandle) := do
  let view ← inst.lookup name
  view.schema.checkBounds element
  match view.state.contents with
  | .handles list => return (list[element]?).join
  | _ => throw (view.schema.mismatch "a texture handle")

/-- Stores a handle in an element and, where the field has texture units, binds it to the element's
unit in the table. -/
def setHandle (inst : StructInstance) (name : String) (element : Nat) (handle : TextureHandle)
    (table : HandleTable) : Except AccessError (StructInstance × HandleTable) := do
  let view ← inst.lookup name
  match view.schema.kind with
  | .handle kind =>
    view.schema.checkBounds element
    inst.checkLocated view
    let state := match view.state.contents with
      | .handles list =>
        { view.state with
          contents := .handles (list.set element (some handle)),
          dirty := view.state.dirty.set element true }
      | _ => view.state
    let bound := match view.state.unit with
      | some unit => table.put (unit + element) kind.target? handle
      | none => table
    return (inst.setState view.index state, bound)
  | _ => throw (view.schema.mismatch "a texture handle")

/-! ## Nested instances -/

/-- The field, and the position in it, of the nested instance that a step leads to. -/
def findChild (inst : StructInstance) (step : PathStep) :
    Except AccessError (FieldView × List StructInstance × Nat × StructInstance) := do
  let view ← inst.lookup step.field
  let index ← view.schema.position step.element "a single aggregate"
  match view.state.contents with
  | .children list =>
    match list[index]? with
    | some child => return (view, list, index, child)
    | none => throw (.indexOutOfRange step.field index list.length)
  | _ => throw (.notAnAggregate view.schema.name)

def descend (inst : StructInstance) : List PathStep → Except AccessError StructInstance
  | [] => .ok inst
  | step :: rest => do
    let (_, _, _, child) ← inst.findChild step
    child.descend rest

/-- Changes the instance that a path leads to, and gives what the change answers beside. -/
def updateAt {α : Type} (change : StructInstance → Except AccessError (StructInstance × α)) :
    List PathStep → StructInstance → Except AccessError (StructInstance × α)
  | [], inst => change inst
  | step :: rest, inst => do
    let (view, list, index, child) ← inst.findChild step
    let (child, answer) ← updateAt change rest child
    let state := { view.state with contents := .children (list.set index child) }
    return (inst.setState view.index state, answer)

@[simp] theorem updateAt_nil {α : Type}
    (change : StructInstance → Except AccessError (StructInstance × α)) (inst : StructInstance) :
    updateAt change [] inst = change inst := rfl

end StructInstance

end UniformLayout
