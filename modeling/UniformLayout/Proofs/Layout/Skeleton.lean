import UniformLayout.Binding.TextureUnit
import UniformLayout.Proofs.Layout.Exact
import Mathlib.Data.List.Forall2

/-!
# Layouts without names

The skeleton of a layout is what is left of it once everything is gone that another declaration of the
same structure may have of its own: the names of the aggregates, their hashes, the locations of the
fields, and the slot and the instance name of a block. Numbers of bytes and texture units depend on the
skeleton only.

* `assignTextureUnits_skeleton`: the texture units.
* `exactLayout_skeleton`: declarations that agree field by field have one skeleton.

Main statement: `layOut_of_agrees`.
-/

namespace UniformLayout

/-- The kind without what is a block's own. -/
def DeclarationKind.skeleton : DeclarationKind → DeclarationKind
  | .struct => .struct
  | .uniformBlock _ _ packing => .uniformBlock none none packing
  | .uniformSet => .uniformSet

mutual

def FieldShape.skeleton : FieldShape → FieldShape
  | .base type => .base type
  | .aggregate layout => .aggregate layout.skeleton

/-- The field with its own name, its place and its binding. -/
def FieldLayout.skeleton : FieldLayout → FieldLayout
  | ⟨name, _, shape, offset, size, alignment, array, qualifiers⟩ =>
    { name, typeName := "", shape := shape.skeleton, offset, size, alignment, array
      qualifiers := { binding := qualifiers.binding } }

/-- The layout without the names and hashes of aggregates. -/
def StructLayout.skeleton : StructLayout → StructLayout
  | ⟨_, _, kind, fields, size, alignment⟩ =>
    { name := "", contentHash := "", kind := kind.skeleton, fields := skeletonAll fields, size
      alignment }

def skeletonAll : List FieldLayout → List FieldLayout
  | [] => []
  | field :: rest => field.skeleton :: skeletonAll rest

end

theorem skeletonAll_eq (fields : List FieldLayout) :
    skeletonAll fields = fields.map FieldLayout.skeleton := by
  induction fields with
  | nil => rw [skeletonAll, List.map_nil]
  | cons field rest ih => rw [skeletonAll, List.map_cons, ih]

theorem FieldLayout.skeleton_eq (field : FieldLayout) : field.skeleton =
    { field with
      typeName := ""
      shape := field.shape.skeleton
      qualifiers := { binding := field.qualifiers.binding } } := by
  cases field
  rw [FieldLayout.skeleton]

theorem StructLayout.skeleton_eq (layout : StructLayout) : layout.skeleton =
    { layout with
      name := ""
      contentHash := ""
      kind := layout.kind.skeleton
      fields := layout.fields.map FieldLayout.skeleton } := by
  cases layout
  rw [StructLayout.skeleton, skeletonAll_eq]

@[simp] theorem FieldShape.skeleton_size (shape : FieldShape) : shape.skeleton.size = shape.size := by
  cases shape with
  | base type => rw [FieldShape.skeleton]
  | aggregate layout =>
    rw [FieldShape.skeleton, FieldShape.size, FieldShape.size, layout.skeleton_eq]

@[simp] theorem FieldShape.skeleton_alignment (shape : FieldShape) :
    shape.skeleton.alignment = shape.alignment := by
  cases shape with
  | base type => rw [FieldShape.skeleton]
  | aggregate layout =>
    rw [FieldShape.skeleton, FieldShape.alignment, FieldShape.alignment, layout.skeleton_eq]

/-! ## Texture units -/

mutual

theorem FieldShape.handleCount_skeleton :
    ∀ shape : FieldShape, shape.skeleton.handleCount = shape.handleCount
  | .base type => by rw [FieldShape.skeleton]
  | .aggregate layout => by
    rw [FieldShape.skeleton, FieldShape.handleCount, FieldShape.handleCount,
      layout.handleCount_skeleton]

theorem FieldLayout.handleCount_skeleton :
    ∀ field : FieldLayout, field.skeleton.handleCount = field.handleCount
  | ⟨_, _, shape, _, _, _, _, _⟩ => by
    rw [FieldLayout.skeleton, FieldLayout.handleCount, FieldLayout.handleCount,
      shape.handleCount_skeleton]

theorem StructLayout.handleCount_skeleton :
    ∀ layout : StructLayout, layout.skeleton.handleCount = layout.handleCount
  | ⟨_, _, _, fields, _, _⟩ => by
    rw [StructLayout.skeleton, StructLayout.handleCount, StructLayout.handleCount,
      handleCountAll_skeleton fields]

theorem handleCountAll_skeleton :
    ∀ fields : List FieldLayout, handleCountAll (skeletonAll fields) = handleCountAll fields
  | [] => by rw [skeletonAll]
  | field :: rest => by
    rw [skeletonAll, handleCountAll, handleCountAll, field.handleCount_skeleton,
      handleCountAll_skeleton rest]

end

/-- Texture units depend on the skeletons of the fields. -/
theorem assignTextureUnits_skeleton (fields : List FieldLayout) (max : Nat) :
    assignTextureUnits (fields.map FieldLayout.skeleton) max = assignTextureUnits fields max := by
  have hneeding : (fields.map FieldLayout.skeleton).filter (0 < ·.handleCount) =
      (fields.filter (0 < ·.handleCount)).map FieldLayout.skeleton := by
    rw [List.filter_map]
    congr 1
    refine List.filter_congr fun field _ => ?_
    rw [Function.comp_apply, field.handleCount_skeleton]
  have hbound : (fun (plan : UnitPlan) (field : FieldLayout) =>
      UnitPlan.serveBound max plan field.skeleton) = UnitPlan.serveBound max := by
    funext plan field
    rw [UnitPlan.serveBound, UnitPlan.serveBound, field.handleCount_skeleton, field.skeleton_eq]
  have hfree : (fun (plan : UnitPlan) (field : FieldLayout) =>
      UnitPlan.serveFree max plan field.skeleton) = UnitPlan.serveFree max := by
    funext plan field
    rw [UnitPlan.serveFree, UnitPlan.serveFree, field.handleCount_skeleton, field.skeleton_eq]
  unfold assignTextureUnits
  dsimp only
  rw [hneeding, List.foldlM_map, hbound]
  simp only [List.foldlM_map, hfree]

/-! ## Fields that agree -/

/-- Two declared fields agree in everything that a skeleton holds. -/
structure FieldDeclaration.Agrees (nested others : LayoutTable) (field other : FieldDeclaration) :
    Prop where
  name : field.name = other.name
  arrayLength : field.arrayLength = other.arrayLength
  binding : field.qualifiers.binding = other.qualifiers.binding
  shape : (field.shapeIn nested).skeleton = (other.shapeIn others).skeleton

theorem FieldDeclaration.Agrees.exactPlace {nested others : LayoutTable}
    {field other : FieldDeclaration} (h : field.Agrees nested others other) (cursor : Nat) :
    (field.exactPlace (field.shapeIn nested) cursor).skeleton =
      (other.exactPlace (other.shapeIn others) cursor).skeleton := by
  have hsize : (field.shapeIn nested).size = (other.shapeIn others).size := by
    rw [← FieldShape.skeleton_size, h.shape, FieldShape.skeleton_size]
  have halignment : (field.shapeIn nested).alignment = (other.shapeIn others).alignment := by
    rw [← FieldShape.skeleton_alignment, h.shape, FieldShape.skeleton_alignment]
  unfold FieldDeclaration.exactPlace FieldDeclaration.exactAlignment exactStride
  rw [FieldLayout.skeleton, FieldLayout.skeleton, h.name, h.arrayLength, h.binding, h.shape, hsize,
    halignment]

theorem exactFields_skeleton {nested others : LayoutTable} {fields declared : List FieldDeclaration}
    (h : List.Forall₂ (FieldDeclaration.Agrees nested others) fields declared) (cursor : Nat) :
    (exactFields nested cursor fields).map FieldLayout.skeleton =
      (exactFields others cursor declared).map FieldLayout.skeleton := by
  induction h generalizing cursor with
  | nil => rfl
  | cons hfield _ ih =>
    have hplace := hfield.exactPlace cursor
    have hfinish := congrArg FieldLayout.finish hplace
    rw [FieldLayout.skeleton_eq, FieldLayout.skeleton_eq] at hfinish
    change (FieldDeclaration.exactPlace _ _ _).finish = (FieldDeclaration.exactPlace _ _ _).finish
      at hfinish
    simp only [exactFields, List.map_cons]
    rw [hplace, hfinish, ih]

theorem foldl_alignment_skeleton (fields : List FieldLayout) :
    ((fields.map FieldLayout.skeleton).map FieldLayout.alignment).foldl max minAlignment =
      (fields.map FieldLayout.alignment).foldl max minAlignment := by
  rw [List.map_map]
  congr 1
  exact List.map_congr_left fun field _ => by rw [Function.comp_apply, field.skeleton_eq]

theorem finishOfFields_skeleton (fields : List FieldLayout) :
    finishOfFields (fields.map FieldLayout.skeleton) = finishOfFields fields := by
  unfold finishOfFields
  rw [List.getLast?_map]
  cases fields.getLast? with
  | none => rfl
  | some last =>
    rw [Option.map_some, Option.elim_some, Option.elim_some, FieldLayout.finish, last.skeleton_eq]
    rfl

section

variable {nested others : LayoutTable} {decl other : TypeDeclaration}

/-- Declarations of one kind whose fields agree have one skeleton. -/
theorem exactLayout_skeleton (hk : decl.kind.skeleton = other.kind.skeleton)
    (h : List.Forall₂ (FieldDeclaration.Agrees nested others) decl.fields other.fields)
    (contentHash otherHash : String) :
    (decl.exactLayout contentHash nested).skeleton =
      (other.exactLayout otherHash others).skeleton := by
  have hfields := exactFields_skeleton h 0
  have halignment := congrArg
    (fun fields : List FieldLayout => (fields.map FieldLayout.alignment).foldl max minAlignment)
    hfields
  have hfinish := congrArg finishOfFields hfields
  rw [foldl_alignment_skeleton, foldl_alignment_skeleton] at halignment
  rw [finishOfFields_skeleton, finishOfFields_skeleton] at hfinish
  unfold TypeDeclaration.exactLayout
  rw [StructLayout.skeleton_eq, StructLayout.skeleton_eq]
  dsimp only
  rw [hk, hfields, halignment, hfinish]

theorem addressable_of_skeleton_eq {field other : FieldLayout}
    (h : field.skeleton = other.skeleton) (ha : field.Addressable) : other.Addressable := by
  rw [field.skeleton_eq, other.skeleton_eq, FieldLayout.mk.injEq] at h
  obtain ⟨-, -, -, hoffset, hsize, -, harray, -⟩ := h
  have hfinish := ha.finish
  unfold FieldLayout.finish at hfinish
  rw [hoffset, hsize] at hfinish
  exact ⟨fun array h => ha.stride array (harray ▸ h), hsize ▸ ha.size, hoffset ▸ ha.offset, hfinish⟩

/-- **Skeletons.** A declaration that agrees with one that is laid out can be laid out as well, and
gets a layout of the same skeleton. -/
theorem layOut_of_agrees (hn : nested.LaidOut) (ho : others.LaidOut)
    (hc : nested.Covers decl.fields) (hk : decl.kind.skeleton = other.kind.skeleton)
    (h : List.Forall₂ (FieldDeclaration.Agrees nested others) decl.fields other.fields)
    {contentHash otherHash : String} {layout : StructLayout}
    (made : other.layOut otherHash others = .ok layout) :
    decl.layOut contentHash nested = .ok (decl.exactLayout contentHash nested) ∧
      (decl.exactLayout contentHash nested).skeleton = layout.skeleton := by
  obtain ⟨-, rfl, hfields, hsize⟩ := eq_exactLayout ho made
  have hskeleton := exactLayout_skeleton hk h contentHash otherHash
  refine ⟨layOut_of_fits hn hc (fun field hm => ?_) ?_, hskeleton⟩
  · have hlist := exactFields_skeleton h 0
    have hmem : field.skeleton ∈ (exactFields others 0 other.fields).map FieldLayout.skeleton := by
      rw [← hlist]
      exact List.mem_map_of_mem hm
    obtain ⟨placed, hp, he⟩ := List.mem_map.1 hmem
    exact addressable_of_skeleton_eq he (hfields placed hp)
  · have hsame := congrArg StructLayout.size hskeleton
    rw [StructLayout.skeleton_eq, StructLayout.skeleton_eq] at hsame
    exact hsame ▸ hsize

end

end UniformLayout
