import UniformLayout.Binding.TextureUnit
import UniformLayout.Registry.Basic
import UniformLayout.Schema

/-!
# Schemas of layouts

`StructLayout.toSchema` gives the schema of a layout whose type, and every type nested in it, has an
identity in the registry. The fields of a free-uniform set get their texture units here. Schemas
that have been built are kept by content hash, and a layout whose hash is among them gets the kept
schema.
-/

namespace UniformLayout

abbrev SchemaTable := Table String TypeSchema

/-- What building a schema depends on. -/
structure SchemaScope where
  registry : Registry
  maxTextureUnits : Nat

/-- The first texture unit of every field that has one: only free uniforms do. -/
def SchemaScope.unitsOf (scope : SchemaScope) (kind : DeclarationKind) (fields : List FieldLayout) :
    Except CompileError (Table String Nat) :=
  if kind = .uniformSet then
    (assignTextureUnits fields scope.maxTextureUnits).mapError .binding
  else .ok []

mutual

/-- The schema of a layout, and the schemas kept after it. -/
def StructLayout.toSchema (scope : SchemaScope) (kept : SchemaTable) :
    StructLayout → Except CompileError (TypeSchema × SchemaTable)
  | ⟨name, contentHash, kind, fields, size, alignment⟩ =>
    match kept.lookup contentHash with
    | some schema => .ok (schema, kept)
    | none =>
      match scope.registry.identityOfHash? contentHash with
      | none => .error (.unresolvedType name name)
      | some identity => do
        let units ← scope.unitsOf kind fields
        let (fields, kept) ← fieldsToSchema scope units kept fields
        let schema : TypeSchema := { identity, kind, size, alignment, fields }
        return (schema, kept.insert contentHash schema)

def fieldsToSchema (scope : SchemaScope) (units : Table String Nat) (kept : SchemaTable) :
    List FieldLayout → Except CompileError (List FieldSchema × SchemaTable)
  | [] => .ok ([], kept)
  | field :: rest => do
    let (first, kept) ← field.toSchema scope units kept
    let (others, kept) ← fieldsToSchema scope units kept rest
    return (first :: others, kept)

def FieldLayout.toSchema (scope : SchemaScope) (units : Table String Nat) (kept : SchemaTable) :
    FieldLayout → Except CompileError (FieldSchema × SchemaTable)
  | ⟨name, typeName, shape, offset, size, _, array, qualifiers⟩ => do
    let (kind, kept) ← shape.toKind scope kept
    let location := qualifiers.location
    let unit := units.lookup name
    return ({ name, typeName, kind, offset, size, array, location, unit }, kept)

def FieldShape.toKind (scope : SchemaScope) (kept : SchemaTable) :
    FieldShape → Except CompileError (FieldKind × SchemaTable)
  | .base (.handle kind) => .ok (.handle kind, kept)
  | .base type => .ok (.value type, kept)
  | .aggregate layout => do
    let (schema, kept) ← layout.toSchema scope kept
    return (.aggregate schema, kept)

end

end UniformLayout
