import UniformLayout.Proofs.Layout.Skeleton
import UniformLayout.Proofs.Schema.Built

/-!
# Schemas without names

The skeleton of a schema leaves out what another declaration of the same structure may have of its own:
the identities, the names of the field types, the locations, and the slot and the instance name of a
block. Every offset, size, stride, base type and texture unit is left. It can be told from the skeleton
of the layout, whatever the registry is (`StructLayout.outline`).

Main statement: `outline_step`.
-/

namespace UniformLayout

mutual

def FieldKind.skeleton : FieldKind → FieldKind
  | .value type => .value type
  | .handle kind => .handle kind
  | .aggregate schema => .aggregate schema.skeleton

/-- The field without the name of its type and without its location. -/
def FieldSchema.skeleton : FieldSchema → FieldSchema
  | ⟨name, _, kind, offset, size, array, _, unit⟩ =>
    { name, typeName := "", kind := kind.skeleton, offset, size, array, location := none, unit }

/-- The schema without its identity. -/
def TypeSchema.skeleton : TypeSchema → TypeSchema
  | ⟨_, kind, size, alignment, fields⟩ =>
    { identity := ⟨"", "", ""⟩, kind := kind.skeleton, size, alignment
      fields := schemaSkeletons fields }

def schemaSkeletons : List FieldSchema → List FieldSchema
  | [] => []
  | field :: rest => field.skeleton :: schemaSkeletons rest

end

/-- The texture units of the fields, as far as they have some. -/
def unitTable (limit : Nat) (kind : DeclarationKind) (fields : List FieldLayout) :
    Table String Nat :=
  ((SchemaScope.unitsOf ⟨{}, limit⟩ kind fields).toOption).getD []

mutual

/-- What a field of this shape holds, according to a schema. -/
def FieldShape.outline (limit : Nat) : FieldShape → FieldKind
  | .base (.handle kind) => .handle kind
  | .base type => .value type
  | .aggregate layout => .aggregate (layout.outline limit)

def FieldLayout.outline (limit : Nat) (units : Table String Nat) : FieldLayout → FieldSchema
  | ⟨name, typeName, shape, offset, size, _, array, qualifiers⟩ =>
    { name, typeName, kind := shape.outline limit, offset, size, array
      location := qualifiers.location, unit := units.lookup name }

/-- The schema that a layout gets when identities do not matter. -/
def StructLayout.outline (limit : Nat) : StructLayout → TypeSchema
  | ⟨_, _, kind, fields, size, alignment⟩ =>
    { identity := ⟨"", "", ""⟩, kind, size, alignment
      fields := outlines limit (unitTable limit kind fields) fields }

def outlines (limit : Nat) (units : Table String Nat) : List FieldLayout → List FieldSchema
  | [] => []
  | field :: rest => field.outline limit units :: outlines limit units rest

end

theorem skeleton_eq_uniformSet {kind : DeclarationKind} :
    kind.skeleton = .uniformSet ↔ kind = .uniformSet := by
  cases kind with
  | struct => exact Iff.rfl
  | uniformBlock slot name packing => exact iff_of_false (fun h => by cases h) fun h => by cases h
  | uniformSet => exact Iff.rfl

/-- The texture units can be told from the skeletons of the fields. -/
theorem unitTable_skeleton {scope : SchemaScope} {kind : DeclarationKind} {fields : List FieldLayout}
    {units : Table String Nat} (h : scope.unitsOf kind fields = .ok units) :
    unitTable scope.maxTextureUnits kind.skeleton (fields.map FieldLayout.skeleton) = units := by
  have hsame : SchemaScope.unitsOf ⟨{}, scope.maxTextureUnits⟩ kind.skeleton
      (fields.map FieldLayout.skeleton) = scope.unitsOf kind fields := by
    unfold SchemaScope.unitsOf
    rw [assignTextureUnits_skeleton]
    simp only [skeleton_eq_uniformSet]
  unfold unitTable
  rw [hsame, h]
  rfl

theorem outline_value {type : BaseType} (h : type.isHandle = false) (limit : Nat) :
    (FieldShape.base type).outline limit = .value type := by
  cases type with
  | handle kind => cases h
  | scalar kind => rw [FieldShape.outline]; intro _ h; cases h
  | vector kind n => rw [FieldShape.outline]; intro _ h; cases h
  | matrix kind columns rows => rw [FieldShape.outline]; intro _ h; cases h

/-- One field: its schema is the one that its skeleton tells. -/
theorem FieldLayout.Becomes.outline {known : String → StructLayout} {limit : Nat}
    {units : Table String Nat} {field : FieldLayout} {schema : FieldSchema}
    (h : field.Becomes (fun inner built =>
      built.skeleton = (known inner.contentHash).outline limit) units schema)
    (hk : ∀ inner, field.shape = .aggregate inner → inner.skeleton = known inner.contentHash) :
    schema.skeleton = field.skeleton.outline limit units := by
  obtain ⟨name, typeName, shape, offset, size, alignment, array, qualifiers⟩ := field
  obtain ⟨name', typeName', kind, offset', size', array', location, unit⟩ := schema
  obtain ⟨hname, -, hoffset, hsize, harray, -, hunit, hkind⟩ := h
  dsimp only at hname hoffset hsize harray hunit hkind hk
  have hshape : kind.skeleton = shape.skeleton.outline limit := by
    cases hkind with
    | handle kind => rw [FieldKind.skeleton, FieldShape.skeleton, FieldShape.outline]
    | value type hb => rw [FieldKind.skeleton, FieldShape.skeleton, outline_value hb]
    | aggregate hr =>
      rw [FieldKind.skeleton, FieldShape.skeleton, FieldShape.outline, hr, hk _ rfl]
  rw [FieldSchema.skeleton, FieldLayout.skeleton, FieldLayout.outline, hname, hoffset, hsize, harray,
    hunit, hshape]

/-- **Schemas.** When hashes tell the skeletons of layouts, they tell the skeletons of schemas. -/
theorem outline_step (known : String → StructLayout) (scope : SchemaScope) :
    scope.Step (StructLayout.DeterminedBy StructLayout.skeleton known)
      fun hash schema => schema.skeleton = (known hash).outline scope.maxTextureUnits := by
  rintro layout identity units fields hd - hu hfields
  obtain ⟨hself, hnested⟩ := hd
  have hall : ∀ (layouts : List FieldLayout) (schemas : List FieldSchema),
      (∀ field ∈ layouts, ∀ inner, field.shape = .aggregate inner →
        inner.skeleton = known inner.contentHash) →
      List.Forall₂ (FieldLayout.Becomes (fun inner built =>
        built.skeleton = (known inner.contentHash).outline scope.maxTextureUnits) units)
          layouts schemas →
        schemaSkeletons schemas =
          outlines scope.maxTextureUnits units (layouts.map FieldLayout.skeleton) := by
    intro layouts schemas hk h
    induction h with
    | nil => rw [schemaSkeletons, List.map_nil, outlines]
    | cons hfirst _ ih =>
      obtain ⟨hfield, hrest⟩ := List.forall_mem_cons.1 hk
      rw [schemaSkeletons, List.map_cons, outlines, hfirst.outline hfield, ih hrest]
  rw [← hself, layout.skeleton_eq, TypeSchema.skeleton, StructLayout.outline,
    unitTable_skeleton hu, hall _ _ (fun field hm inner hs => (hnested field hm inner hs).head) hfields]

end UniformLayout
