import UniformLayout.Layout

/-!
# Type schemas

A schema describes one host type: its identity, and for each field the offset, the shape of its
elements, the location that its source gives it and its first texture unit. Instances are built from
schemas, and host sources are written from them.

Main statements: `TypeSchema.beq_self` and `TypeSchema.eq_of_beq`.
-/

namespace UniformLayout

mutual

/-- What the elements of a field hold. -/
inductive FieldKind where
  | value (type : BaseType)
  | handle (kind : HandleKind)
  | aggregate (schema : TypeSchema)

/-- One field of a host type. `unit` is the first texture unit of the handles at or below the
field; it is known for free uniforms only. -/
structure FieldSchema where
  name : String
  typeName : String
  kind : FieldKind
  offset : Nat
  size : Nat
  array : Option ArrayLayout
  location : Option Nat
  unit : Option Nat

/-- One host type. -/
structure TypeSchema where
  identity : TypeIdentity
  kind : DeclarationKind
  size : Nat
  alignment : Nat
  fields : List FieldSchema

end

namespace FieldSchema

/-- The number of elements; a field that is not an array has one. -/
def length (field : FieldSchema) : Nat := field.array.elim 1 ArrayLayout.length

def isArray (field : FieldSchema) : Bool := field.array.isSome

/-- The distance between elements; 0 where there is only one. -/
def stride (field : FieldSchema) : Nat := field.array.elim 0 ArrayLayout.stride

/-- Where element `index` starts. -/
def elementOffset (field : FieldSchema) (index : Nat) : Nat :=
  field.offset + index * field.stride

def elementSize (field : FieldSchema) : Nat :=
  match field.kind with
  | .value type => type.size
  | .handle _ => 4
  | .aggregate schema => schema.size

/-- The field's type as text, with its array length. -/
def displayType (field : FieldSchema) : String :=
  match field.array with
  | some array => s!"{field.typeName}[{array.length}]"
  | none => field.typeName

end FieldSchema

mutual

def FieldKind.handleCount : FieldKind → Nat
  | .value _ => 0
  | .handle _ => 1
  | .aggregate schema => schema.handleCount

def FieldSchema.handleCount : FieldSchema → Nat
  | { kind, array, .. } => kind.handleCount * array.elim 1 ArrayLayout.length

def TypeSchema.handleCount : TypeSchema → Nat
  | { fields, .. } => handleCountOf fields

def handleCountOf : List FieldSchema → Nat
  | [] => 0
  | field :: rest => field.handleCount + handleCountOf rest

end

namespace TypeSchema

def name (schema : TypeSchema) : String := schema.identity.generatedName

def fieldIndex? (schema : TypeSchema) (name : String) : Option Nat :=
  schema.fields.findIdx? (·.name == name)

/-- The type gathers the free uniforms of a source. -/
def isUniformSet (schema : TypeSchema) : Bool := schema.kind == .uniformSet

end TypeSchema

/-! ## Equality -/

mutual

def FieldKind.beq : FieldKind → FieldKind → Bool
  | .value a, .value b => a == b
  | .handle a, .handle b => a == b
  | .aggregate a, .aggregate b => a.beq b
  | _, _ => false

def FieldSchema.beq : FieldSchema → FieldSchema → Bool
  | ⟨name, typeName, kind, offset, size, array, location, unit⟩,
    ⟨name', typeName', kind', offset', size', array', location', unit'⟩ =>
    name == name' && typeName == typeName' && kind.beq kind' && offset == offset' &&
      size == size' && array == array' && location == location' && unit == unit'

def TypeSchema.beq : TypeSchema → TypeSchema → Bool
  | ⟨identity, kind, size, alignment, fields⟩, ⟨identity', kind', size', alignment', fields'⟩ =>
    identity == identity' && kind == kind' && size == size' && alignment == alignment' &&
      fieldsBeq fields fields'

def fieldsBeq : List FieldSchema → List FieldSchema → Bool
  | [], [] => true
  | a :: as, b :: bs => a.beq b && fieldsBeq as bs
  | _, _ => false

end

instance : BEq TypeSchema := ⟨TypeSchema.beq⟩

mutual

theorem FieldKind.beq_self : ∀ kind : FieldKind, kind.beq kind = true
  | .value _ => by simp [FieldKind.beq]
  | .handle _ => by simp [FieldKind.beq]
  | .aggregate schema => by simp [FieldKind.beq, schema.beq_self]

theorem FieldSchema.beq_self : ∀ field : FieldSchema, field.beq field = true
  | ⟨_, _, kind, _, _, _, _, _⟩ => by simp [FieldSchema.beq, kind.beq_self]

/-- Every schema equals itself. -/
theorem TypeSchema.beq_self : ∀ schema : TypeSchema, schema.beq schema = true
  | ⟨_, _, _, _, fields⟩ => by simp [TypeSchema.beq, fieldsBeq_self fields]

theorem fieldsBeq_self : ∀ fields : List FieldSchema, fieldsBeq fields fields = true
  | [] => by simp [fieldsBeq]
  | field :: rest => by simp [fieldsBeq, field.beq_self, fieldsBeq_self rest]

end

mutual

theorem FieldKind.eq_of_beq : ∀ {kind other : FieldKind}, kind.beq other = true → kind = other
  | .value _, .value _, h | .handle _, .handle _, h => by
    rw [FieldKind.beq, beq_iff_eq] at h
    rw [h]
  | .aggregate schema, .aggregate other, h => by
    rw [FieldKind.beq] at h
    rw [TypeSchema.eq_of_beq h]
  | .value _, .handle _, h | .value _, .aggregate _, h | .handle _, .value _, h
  | .handle _, .aggregate _, h | .aggregate _, .value _, h | .aggregate _, .handle _, h => by
    simp [FieldKind.beq] at h

theorem FieldSchema.eq_of_beq : ∀ {field other : FieldSchema}, field.beq other = true → field = other
  | ⟨_, _, kind, _, _, _, _, _⟩, ⟨_, _, other, _, _, _, _, _⟩, h => by
    simp only [FieldSchema.beq, Bool.and_eq_true, beq_iff_eq] at h
    obtain ⟨⟨⟨⟨⟨⟨⟨rfl, rfl⟩, hkind⟩, rfl⟩, rfl⟩, rfl⟩, rfl⟩, rfl⟩ := h
    rw [FieldKind.eq_of_beq hkind]

/-- Schemas that compare as equal are equal. -/
theorem TypeSchema.eq_of_beq : ∀ {schema other : TypeSchema}, schema.beq other = true → schema = other
  | ⟨_, _, _, _, fields⟩, ⟨_, _, _, _, others⟩, h => by
    simp only [TypeSchema.beq, Bool.and_eq_true, beq_iff_eq] at h
    obtain ⟨⟨⟨⟨rfl, rfl⟩, rfl⟩, rfl⟩, hfields⟩ := h
    rw [eq_of_fieldsBeq hfields]

theorem eq_of_fieldsBeq :
    ∀ {fields others : List FieldSchema}, fieldsBeq fields others = true → fields = others
  | [], [], _ => rfl
  | field :: rest, other :: others, h => by
    rw [fieldsBeq, Bool.and_eq_true] at h
    rw [FieldSchema.eq_of_beq h.1, eq_of_fieldsBeq h.2]
  | [], _ :: _, h | _ :: _, [], h => by simp [fieldsBeq] at h

end

end UniformLayout
