import UniformLayout.BaseType.Name

/-!
# Declarations

What a shader source declares: structs, uniform blocks, free uniforms, and the synthetic set that
gathers the free uniforms of one source. Types are named by text here; a field refers to a base
type or to a declared aggregate.

Main statement: `Packing.ofName?_name`.
-/

namespace UniformLayout

/-- Where a declaration stands. `file` is the stable key of its source. -/
structure SourceLocation where
  file : String := ""
  line : Nat := 0
  column : Nat := 0
  deriving DecidableEq, Repr, Inhabited

/-- The location as text, `file:line:column`. -/
def SourceLocation.display (at_ : SourceLocation) : String :=
  s!"{at_.file}:{at_.line}:{at_.column}"

/-- An annotation `[name:value]` above a declaration. -/
structure Attribute where
  name : String
  value : String
  deriving DecidableEq, Repr

/-- Layout qualifiers that apply to one uniform and not to its type. -/
structure Qualifiers where
  binding : Option Nat := none
  location : Option Nat := none
  deriving DecidableEq, Repr, Inhabited

/-- One member of an aggregate. `arrayLength` is positive where it is present. -/
structure FieldDeclaration where
  typeName : String
  name : String
  arrayLength : Option Nat := none
  qualifiers : Qualifiers := {}
  source : SourceLocation := {}
  deriving DecidableEq, Repr, Inhabited

/-- The memory layout standard that a uniform block asks for. -/
inductive Packing where
  | std140
  | std430
  | packed
  | shared
  deriving DecidableEq, Repr, Inhabited

namespace Packing

def name : Packing → String
  | .std140 => "std140"
  | .std430 => "std430"
  | .packed => "packed"
  | .shared => "shared"

def ofName? (text : String) : Option Packing :=
  [std140, std430, packed, shared].find? (·.name == text)

theorem ofName?_name (packing : Packing) : ofName? packing.name = some packing := by
  cases packing <;> decide

end Packing

/-- What a declared aggregate is. `uniformSet` gathers the free uniforms of one source. -/
inductive DeclarationKind where
  | struct
  | uniformBlock (bindingSlot : Option Nat) (instanceName : Option String) (packing : Packing)
  | uniformSet
  deriving DecidableEq, Repr, Inhabited

namespace DeclarationKind

/-- The kind's part of a structural fingerprint. A block's slot and instance name do not change its
host type and are left out. -/
def tag : DeclarationKind → String
  | .struct => "struct"
  | .uniformBlock _ _ packing => s!"block:{packing.name}"
  | .uniformSet => "uniforms"

/-- Only blocks are bound to slots. -/
def isBlock : DeclarationKind → Bool
  | .uniformBlock .. => true
  | _ => false

/-- The slot that a block's own qualifier asks for. -/
def bindingSlot? : DeclarationKind → Option Nat
  | .uniformBlock slot _ _ => slot
  | _ => none

end DeclarationKind

/-- A declared aggregate. -/
structure TypeDeclaration where
  name : String
  kind : DeclarationKind
  fields : List FieldDeclaration
  attributes : List Attribute := []
  source : SourceLocation := {}
  deriving DecidableEq, Repr, Inhabited

/-- A uniform outside any block. -/
structure UniformDeclaration where
  typeName : String
  name : String
  arrayLength : Option Nat
  qualifiers : Qualifiers
  attributes : List Attribute
  source : SourceLocation
  deriving DecidableEq, Repr, Inhabited

namespace FieldDeclaration

/-- The field's base type; nothing where it refers to an aggregate. -/
def baseType? (field : FieldDeclaration) : Option BaseType :=
  BaseType.ofName? field.typeName

/-- Two fields agree in type, name and array length. -/
def sameShape (a b : FieldDeclaration) : Bool :=
  a.typeName == b.typeName && a.name == b.name && a.arrayLength == b.arrayLength

end FieldDeclaration

namespace TypeDeclaration

/-- The aggregates that the fields refer to, in field order, each once. -/
def dependencies (decl : TypeDeclaration) : List String :=
  decl.fields.foldl
    (fun names field =>
      if field.baseType?.isNone && !names.contains field.typeName then names ++ [field.typeName]
      else names)
    []

/-- Two declarations agree in kind and field by field. -/
def sameShape (a b : TypeDeclaration) : Bool :=
  a.kind.tag == b.kind.tag && a.fields.length == b.fields.length &&
    (a.fields.zip b.fields).all fun (x, y) => x.sameShape y

def field? (decl : TypeDeclaration) (name : String) : Option FieldDeclaration :=
  decl.fields.find? (·.name == name)

end TypeDeclaration

/-- The field that a free uniform becomes in its source's set. -/
def UniformDeclaration.toField (uniform : UniformDeclaration) : FieldDeclaration where
  typeName := uniform.typeName
  name := uniform.name
  arrayLength := uniform.arrayLength
  qualifiers := uniform.qualifiers
  source := uniform.source

end UniformLayout
