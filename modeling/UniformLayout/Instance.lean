import UniformLayout.Binding.HandleTable
import UniformLayout.Schema
import UniformLayout.Value

/-!
# Instances

A `StructInstance` holds the values, handles and nested instances of one host type. Every field
keeps one dirty flag for each element, a location, and the texture unit of its first handle. A new
instance is zero, clean and detached from the host. Struct-typed free uniforms hand their texture
units down to the handles that they contain, one unit for each, in declaration order.

Main statements: `StructInstance.schema_assignUnits` and `TypeSchema.schema_instantiate`.
-/

namespace UniformLayout

mutual

/-- The contents of a field, one entry for each element. -/
inductive FieldContents where
  | values (list : List UniformValue)
  | handles (list : List (Option TextureHandle))
  | children (list : List StructInstance)

/-- The state of one field. Nested instances track their own changes, so the flags of a field that
holds instances are unused. -/
structure FieldState where
  contents : FieldContents
  dirty : List Bool
  location : Option Nat
  unit : Option Nat

/-- An instance of a host type. Once it is attached to the host, fields without a location refuse
writes. -/
structure StructInstance where
  schema : TypeSchema
  fields : List FieldState
  attached : Bool

end

/-! ## Texture units -/

mutual

/-- Gives the handles of an instance consecutive units from `next` on, and the first unit behind
them. -/
def StructInstance.assignUnits (next : Nat) : StructInstance → StructInstance × Nat
  | ⟨schema, fields, attached⟩ =>
    let (fields, after) := assignFieldUnits next schema.fields fields
    (⟨schema, fields, attached⟩, after)

def assignFieldUnits (next : Nat) : List FieldSchema → List FieldState → List FieldState × Nat
  | schema :: schemas, state :: states =>
    let (state, next) := state.assignUnits next schema
    let (states, after) := assignFieldUnits next schemas states
    (state :: states, after)
  | _, states => (states, next)

def FieldState.assignUnits (next : Nat) (schema : FieldSchema) : FieldState → FieldState × Nat
  | ⟨.children list, dirty, location, unit⟩ =>
    let (list, after) := assignChildUnits next list
    (⟨.children list, dirty, location, unit⟩, after)
  | ⟨.values list, dirty, location, unit⟩ => (⟨.values list, dirty, location, unit⟩, next)
  | ⟨.handles list, dirty, location, unit⟩ =>
    match schema.kind with
    | .handle _ => (⟨.handles list, dirty, location, some next⟩, next + schema.length)
    | _ => (⟨.handles list, dirty, location, unit⟩, next)

def assignChildUnits (next : Nat) : List StructInstance → List StructInstance × Nat
  | [] => ([], next)
  | child :: rest =>
    let (child, next) := child.assignUnits next
    let (rest, after) := assignChildUnits next rest
    (child :: rest, after)

end

@[simp] theorem StructInstance.schema_assignUnits (next : Nat) (inst : StructInstance) :
    (inst.assignUnits next).1.schema = inst.schema := by
  cases inst
  simp [assignUnits]

/-! ## New instances -/

mutual

def TypeSchema.instantiate : TypeSchema → StructInstance
  | ⟨identity, kind, size, alignment, fields⟩ =>
    { schema := ⟨identity, kind, size, alignment, fields⟩, fields := initialStates fields,
      attached := false }

def initialStates : List FieldSchema → List FieldState
  | [] => []
  | field :: rest => field.initialState :: initialStates rest

def FieldSchema.initialState : FieldSchema → FieldState
  | ⟨_, _, kind, _, _, array, location, unit⟩ =>
    let length := array.elim 1 ArrayLayout.length
    { contents := kind.initialContents length unit, dirty := List.replicate length false, location,
      unit }

/-- The first contents of a field of `length` elements, whose handles start at texture unit
`unit`. -/
def FieldKind.initialContents (length : Nat) (unit : Option Nat) : FieldKind → FieldContents
  | .value type =>
    match UniformValue.zero? type with
    | some zero => .values (List.replicate length zero)
    | none => .handles (List.replicate length none)
  | .handle _ => .handles (List.replicate length none)
  | .aggregate schema =>
    let children := List.replicate length schema.instantiate
    match unit with
    | some first => .children (assignChildUnits first children).1
    | none => .children children

end

/-- An instance keeps the schema that it is made from. -/
@[simp] theorem TypeSchema.schema_instantiate (schema : TypeSchema) :
    schema.instantiate.schema = schema := by
  cases schema
  simp [instantiate]

/-! ## Attachment and offsets as locations -/

mutual

/-- Binds the instance, with all nested ones, to the host. -/
def StructInstance.attach : StructInstance → StructInstance
  | ⟨schema, fields, _⟩ => ⟨schema, attachFields fields, true⟩

def attachFields : List FieldState → List FieldState
  | [] => []
  | state :: rest => state.attach :: attachFields rest

def FieldState.attach : FieldState → FieldState
  | ⟨.children list, dirty, location, unit⟩ =>
    ⟨.children (attachChildren list), dirty, location, unit⟩
  | ⟨.values list, dirty, location, unit⟩ => ⟨.values list, dirty, location, unit⟩
  | ⟨.handles list, dirty, location, unit⟩ => ⟨.handles list, dirty, location, unit⟩

def attachChildren : List StructInstance → List StructInstance
  | [] => []
  | child :: rest => child.attach :: attachChildren rest

end

mutual

/-- Gives every field at or below the instance its byte offset as location, where the instance
starts at `base`. -/
def StructInstance.locateFrom (base : Nat) : StructInstance → StructInstance
  | ⟨schema, fields, attached⟩ => ⟨schema, locateFieldsFrom base schema.fields fields, attached⟩

def locateFieldsFrom (base : Nat) : List FieldSchema → List FieldState → List FieldState
  | schema :: schemas, state :: states =>
    state.locateFrom base schema :: locateFieldsFrom base schemas states
  | _, states => states

def FieldState.locateFrom (base : Nat) (schema : FieldSchema) : FieldState → FieldState
  | ⟨.children list, dirty, location, unit⟩ =>
    ⟨.children (locateChildrenFrom (base + schema.offset) schema.stride list), dirty, location, unit⟩
  | ⟨.values list, dirty, _, unit⟩ => ⟨.values list, dirty, some (base + schema.offset), unit⟩
  | ⟨.handles list, dirty, _, unit⟩ => ⟨.handles list, dirty, some (base + schema.offset), unit⟩

/-- Gives locations to instances that start at `base` and lie `stride` bytes apart. -/
def locateChildrenFrom (base stride : Nat) : List StructInstance → List StructInstance
  | [] => []
  | child :: rest => child.locateFrom base :: locateChildrenFrom (base + stride) stride rest

end

/-- Gives every field at or below the instance its byte offset as location. Members of a block are
addressed inside the bound buffer. -/
def StructInstance.locateAtOffsets (inst : StructInstance) : StructInstance :=
  inst.locateFrom 0

/-! ## Equality -/

mutual

/-- Two instances are equal in schema, state and attachment; values compare as numbers. -/
def StructInstance.beq : StructInstance → StructInstance → Bool
  | ⟨schema, fields, attached⟩, ⟨schema', fields', attached'⟩ =>
    schema == schema' && statesBeq fields fields' && attached == attached'

def statesBeq : List FieldState → List FieldState → Bool
  | [], [] => true
  | a :: as, b :: bs => a.beq b && statesBeq as bs
  | _, _ => false

def FieldState.beq : FieldState → FieldState → Bool
  | ⟨contents, dirty, location, unit⟩, ⟨contents', dirty', location', unit'⟩ =>
    contents.beq contents' && dirty == dirty' && location == location' && unit == unit'

def FieldContents.beq : FieldContents → FieldContents → Bool
  | .values a, .values b => a.length == b.length && (a.zip b).all fun (x, y) => x.eqValue y
  | .handles a, .handles b => a == b
  | .children a, .children b => childrenBeq a b
  | _, _ => false

def childrenBeq : List StructInstance → List StructInstance → Bool
  | [], [] => true
  | a :: as, b :: bs => a.beq b && childrenBeq as bs
  | _, _ => false

end

instance : BEq StructInstance := ⟨StructInstance.beq⟩

end UniformLayout
