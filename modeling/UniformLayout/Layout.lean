import UniformLayout.Identity

/-!
# Layouts

A `StructLayout` places the fields of one aggregate: each has an offset, a size and an alignment,
and arrays have a stride. Layouts nest. `StructLayout.validate` checks a layout on its own, without
knowing how it was made: its size is a multiple of its alignment, and its fields lie inside it, in
order and apart.

Main statement: `StructLayout.validate_eq_ok_iff`.
-/

namespace UniformLayout

/-- The number of elements of an array and the distance between them. -/
structure ArrayLayout where
  length : Nat
  stride : Nat
  deriving DecidableEq, Repr, Inhabited

mutual

/-- What one element of a field is. -/
inductive FieldShape where
  | base (type : BaseType)
  | aggregate (layout : StructLayout)

/-- A field in its place. `size` covers all elements of an array. -/
structure FieldLayout where
  name : String
  typeName : String
  shape : FieldShape
  offset : Nat
  size : Nat
  alignment : Nat
  array : Option ArrayLayout
  qualifiers : Qualifiers

/-- The layout of one aggregate under the name that its source declares. -/
structure StructLayout where
  name : String
  contentHash : String
  kind : DeclarationKind
  fields : List FieldLayout
  size : Nat
  alignment : Nat

end

def FieldShape.size : FieldShape → Nat
  | .base type => type.size
  | .aggregate layout => layout.size

def FieldShape.alignment : FieldShape → Nat
  | .base type => type.alignment
  | .aggregate layout => layout.alignment

def limit : Nat := (1 <<< 32) - 1

/-- The sum, or `limit` where it does not fit. -/
def boundedAdd (a b : Nat) : Nat := min (a + b) limit

/-- The product, or `limit` where it does not fit. -/
def boundedMul (a b : Nat) : Nat := min (a * b) limit

namespace FieldLayout

def elementSize (field : FieldLayout) : Nat := field.shape.size

/-- The number of elements; a field that is not an array has one. -/
def length (field : FieldLayout) : Nat := field.array.elim 1 ArrayLayout.length

/-- Where element `index` starts. -/
def elementOffset (field : FieldLayout) (index : Nat) : Nat :=
  field.offset + field.array.elim 0 fun array => index * array.stride

def finish (field : FieldLayout) : Nat := field.offset + field.size

def isTightlyPacked (field : FieldLayout) : Bool :=
  field.array.all fun array => array.stride == field.elementSize

end FieldLayout

mutual

def FieldShape.handleCount : FieldShape → Nat
  | .base type => if type.isHandle then 1 else 0
  | .aggregate layout => layout.handleCount

/-- The texture units that a field needs: one for each handle below it, in all its elements. -/
def FieldLayout.handleCount : FieldLayout → Nat
  | { shape, array, .. } => boundedMul shape.handleCount (array.elim 1 ArrayLayout.length)

def StructLayout.handleCount : StructLayout → Nat
  | { fields, .. } => handleCountAll fields

def handleCountAll : List FieldLayout → Nat
  | [] => 0
  | field :: rest => boundedAdd field.handleCount (handleCountAll rest)

end

/-- What is wrong with a layout. -/
inductive LayoutViolation where
  | unalignedSize (size alignment : Nat)
  | fieldOutOfBounds (field : String) (finish size : Nat)
  | overlap (first second : String)
  deriving DecidableEq, Repr

def LayoutViolation.message : LayoutViolation → String
  | .unalignedSize size alignment => s!"size {size} is not a multiple of alignment {alignment}"
  | .fieldOutOfBounds field finish size =>
    s!"field `{field}` ends at {finish}, past the aggregate size {size}"
  | .overlap first second => s!"fields `{first}` and `{second}` overlap"

namespace StructLayout

def field? (layout : StructLayout) (name : String) : Option FieldLayout :=
  layout.fields.find? (·.name == name)

def fieldOffsets (layout : StructLayout) : List (String × Nat) :=
  layout.fields.map fun field => (field.name, field.offset)

/-- Some byte belongs to no field, or to the padding between array elements. -/
def hasPadding (layout : StructLayout) : Bool :=
  (layout.fields.map FieldLayout.size).foldr (· + ·) 0 != layout.size ||
    layout.fields.any fun field => !field.isTightlyPacked

/-- Checks the fields in order, behind the field `previous`. -/
def validateFields (size : Nat) : (previous : Option FieldLayout) → List FieldLayout →
    Except LayoutViolation Unit
  | _, [] => .ok ()
  | previous, field :: rest =>
    if field.finish > size then .error (.fieldOutOfBounds field.name field.finish size)
    else match previous with
      | some before =>
        if before.finish > field.offset then .error (.overlap before.name field.name)
        else validateFields size (some field) rest
      | none => validateFields size (some field) rest

/-- Checks a layout: its size and alignment, then field after field. -/
def validate (layout : StructLayout) : Except LayoutViolation Unit :=
  if layout.alignment = 0 ∨ layout.size % layout.alignment ≠ 0 then
    .error (.unalignedSize layout.size layout.alignment)
  else validateFields layout.size none layout.fields

/-- Each field starts where the one before has ended, or later. -/
def InOrder : List FieldLayout → Prop
  | before :: field :: rest => before.finish ≤ field.offset ∧ InOrder (field :: rest)
  | _ => True

theorem validateFields_some_eq_ok_iff {size : Nat} {before : FieldLayout}
    {fields : List FieldLayout} : validateFields size (some before) fields = .ok () ↔
      (∀ field ∈ fields, field.finish ≤ size) ∧ InOrder (before :: fields) := by
  induction fields generalizing before with
  | nil => simp [validateFields, InOrder]
  | cons field rest ih =>
    by_cases hs : field.finish > size
    · have : ¬ field.finish ≤ size := by omega
      simp [validateFields, hs, this]
    · have hle : field.finish ≤ size := by omega
      by_cases ho : before.finish > field.offset
      · have : ¬ before.finish ≤ field.offset := by omega
        simp [validateFields, hs, ho, InOrder, this]
      · have : before.finish ≤ field.offset := by omega
        simp [validateFields, hs, ho, ih, InOrder, this, hle]

/-- A layout passes exactly when its size is a multiple of its alignment and its fields end inside
it, each behind the one before. -/
theorem validate_eq_ok_iff {layout : StructLayout} :
    layout.validate = .ok () ↔
      layout.alignment ≠ 0 ∧ layout.size % layout.alignment = 0 ∧
        (∀ field ∈ layout.fields, field.finish ≤ layout.size) ∧ InOrder layout.fields := by
  by_cases ha : layout.alignment = 0
  · simp [validate, ha]
  · by_cases hm : layout.size % layout.alignment = 0
    · cases hf : layout.fields with
      | nil => simp [validate, ha, hm, hf, validateFields, InOrder]
      | cons field rest =>
        by_cases hs : field.finish > layout.size
        · have : ¬ field.finish ≤ layout.size := by omega
          simp [validate, ha, hm, hf, validateFields, hs, this]
        · have : field.finish ≤ layout.size := by omega
          simp [validate, ha, hm, hf, validateFields, hs, this, validateFields_some_eq_ok_iff]
    · simp [validate, ha, hm]

end StructLayout

/-- A layout under the identity that the registry gave its type. -/
structure LayoutDescriptor where
  identity : TypeIdentity
  layout : StructLayout

def LayoutDescriptor.fieldOffset? (descriptor : LayoutDescriptor) (name : String) : Option Nat :=
  (descriptor.layout.field? name).map FieldLayout.offset

end UniformLayout
