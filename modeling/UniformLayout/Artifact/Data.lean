import UniformLayout.Artifact.Code
import UniformLayout.Artifact.Plan
import UniformLayout.Text.Digits

/-!
# Plain-data structs

The part of a generated source that holds a type's bytes: a header comment, a struct for the padded
elements of each array that needs one, the plain-data struct with explicit padding members, and
assertions on its size and offsets.
-/

namespace UniformLayout

/-- One member of a plain-data struct. -/
structure DataMember where
  name : String
  type : HostType
  deriving DecidableEq, Repr

/-- A padding member: the `n`-th one of its struct. -/
def padMember (n bytes : Nat) : DataMember := ⟨s!"__pad{n}", .array .byte bytes⟩

/-- The members of the plain-data struct of `size` bytes, from the given byte and padding number on.
Bytes that no field covers belong to padding members. -/
def dataMembersFrom (size : Nat) : (cursor pads : Nat) → List FieldPlan → List DataMember
  | cursor, pads, [] => if cursor < size then [padMember pads (size - cursor)] else []
  | cursor, pads, plan :: rest =>
    let field := plan.field
    let gap := if cursor < field.offset then [padMember pads (field.offset - cursor)] else []
    gap ++ ⟨plan.identifier, plan.storage⟩ ::
      dataMembersFrom size (field.offset + field.size) (pads + gap.length) rest

/-- The members of the plain-data struct of a type. -/
def TypeSchema.dataMembers (schema : TypeSchema) (plans : List FieldPlan) : List DataMember :=
  dataMembersFrom schema.size 0 0 plans

/-- The members of the struct for one padded array element. -/
def FieldPlan.elementMembers (plan : FieldPlan) : List DataMember :=
  [⟨"value", plan.host⟩,
    ⟨"_pad", .array .byte (plan.field.stride - plan.field.elementSize)⟩]

/-- A struct whose bytes can be copied as they are. -/
def plainStruct (name : String) (members : List DataMember) : List Code :=
  Code.lines
    ["#[repr(C)]", "#[allow(non_camel_case_types)]",
      "#[derive(Debug, Clone, Copy, PartialEq, bytemuck::Pod, bytemuck::Zeroable)]"] ++
    [Code.braced s!"pub struct {name}"
      (members.map fun member => .line s!"pub {member.name}: {member.type.text},")]

def DeclarationKind.label : DeclarationKind → String
  | .struct => "struct"
  | .uniformBlock _ _ packing =>
    if packing = .std140 then "uniform block"
    else s!"uniform block, declared {packing.name} and laid out as std140"
  | .uniformSet => "free uniforms"

def TypeSchema.header (schema : TypeSchema) : List Code :=
  let row (field : FieldSchema) : String :=
    s!"//   {Text.padStart 5 (toString field.offset)}  {field.displayType} {field.name}"
  Code.lines
    (["// Generated by shader-layout. Do not edit.", "//",
      s!"// Type:     {schema.name} ({schema.kind.label})",
      s!"// Identity: {schema.identity.persistentId}",
      s!"// Hash:     {schema.identity.contentHash}",
      s!"// Layout:   std140, {schema.size} bytes, {schema.alignment}-byte aligned"] ++
    (if schema.fields.isEmpty then [] else "//" :: schema.fields.map row))

/-- The assertions that the plain-data struct is laid out as the schema says. -/
def TypeSchema.assertions (schema : TypeSchema) (plans : List FieldPlan) : List Code :=
  let data := dataName schema.name
  .line s!"const _: () = assert!(core::mem::size_of::<{data}>() == {schema.size});" ::
    plans.map fun plan =>
      let place := s!"core::mem::offset_of!({data}, {plan.identifier})"
      .line s!"const _: () = assert!({place} == {plan.field.offset});"

/-- The header, the structs and the assertions, with an empty line behind each. -/
def TypeSchema.dataCode (schema : TypeSchema) (plans : List FieldPlan) : List Code :=
  let elements := plans.flatMap fun plan =>
    plan.element.elim [] fun name => plainStruct name plan.elementMembers ++ [Code.blank]
  schema.header ++ [Code.blank] ++ elements ++
    plainStruct (dataName schema.name) (schema.dataMembers plans) ++ [Code.blank] ++
    schema.assertions plans ++ [Code.blank]

end UniformLayout
