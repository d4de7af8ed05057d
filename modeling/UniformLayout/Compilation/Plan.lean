import UniformLayout.Binding.Pool
import UniformLayout.Binding.TextureUnit
import UniformLayout.Compilation.Unit
import UniformLayout.Layout.Std140
import UniformLayout.Resolution

/-!
# Plans

The plan of a unit lists its types in the order of their dependencies, each with its layout. Types
whose structure the registry has generated keep the layout that it has for them. `assignSlots` then
gives every uniform block a binding slot. Neither changes the registry.

Main statement: `assignSlots_nil`.
-/

namespace UniformLayout

/-- A declared type with its layout. -/
structure PlannedType where
  declaration : TypeDeclaration
  contentHash : String
  layout : StructLayout
  /-- What the registry has for a type that was generated before. -/
  known : Option LayoutDescriptor

/-- The name under which the unit declares the type. -/
def PlannedType.name (planned : PlannedType) : String := planned.declaration.name

/-- The types of a unit, and what else its source holds. -/
structure Plan where
  types : List PlannedType
  warnings : List SourceWarning
  anonymousBlocks : List Source.AnonymousBlock

def layOutAll (nested : LayoutTable) : List ResolvedType → Except CompileError (List PlannedType)
  | [] => .ok []
  | ⟨declaration, contentHash⟩ :: rest => do
    let layout ← declaration.layOut contentHash nested
    let others ← layOutAll ((declaration.name, layout) :: nested) rest
    return { declaration, contentHash, layout, known := none } :: others

namespace Resolution

/-- The layouts of the types that were generated before, by the names that the unit has for them. -/
def reusedLayouts (resolution : Resolution) : LayoutTable :=
  resolution.reused.map fun entry => (entry.name, entry.descriptor.layout)

def reusedTypes (resolution : Resolution) : List PlannedType :=
  resolution.reused.filterMap fun entry =>
    entry.declaration.map fun declaration =>
      { declaration
        contentHash := entry.descriptor.identity.contentHash
        layout := entry.descriptor.layout
        known := some entry.descriptor }

/-- The declared types wave by wave, each with its layout. -/
def plannedTypes (resolution : Resolution) : Except CompileError (List PlannedType) := do
  let fresh ← layOutAll resolution.reusedLayouts resolution.order
  let all := resolution.reusedTypes ++ fresh
  return resolution.waves.flatten.filterMap fun name => all.find? (·.name == name)

end Resolution

def SourceUnit.plan (unit : SourceUnit) (registry : Registry) : Logged CompileError Plan := do
  let (contents, shared) ← unit.read
  let resolution ← resolve registry unit.key (SourceUnit.declarations contents shared)
  let types ← resolution.plannedTypes
  return { types, warnings := contents.warnings, anonymousBlocks := contents.anonymousBlocks }

/-! ## Binding slots -/

/-- The binding slots of blocks by their declared name. -/
abbrev SlotTable := List (String × Nat)

/-- Asks for a slot for each uniform block, in order. The texture units of free uniforms are tried
out as well; where they do not suffice, no later slot is asked for. -/
def assignSlots {σ : Type} (maxTextureUnits : Nat) (allocator : SlotAllocator σ) :
    List PlannedType → σ → Except CompileError SlotTable × σ
  | [], state => (.ok [], state)
  | planned :: rest, state =>
    match planned.declaration.kind with
    | .struct => assignSlots maxTextureUnits allocator rest state
    | .uniformSet =>
      match assignTextureUnits planned.layout.fields maxTextureUnits with
      | .error e => (.error (.binding e), state)
      | .ok _ => assignSlots maxTextureUnits allocator rest state
    | .uniformBlock request .. =>
      match allocator.allocate request state with
      | (.error e, state) => (.error (.binding e), state)
      | (.ok slot, state) =>
        let (slots, state) := assignSlots maxTextureUnits allocator rest state
        (slots.map ((planned.name, slot) :: ·), state)

@[simp] theorem assignSlots_nil {σ : Type} (maxTextureUnits : Nat) (allocator : SlotAllocator σ)
    (state : σ) : assignSlots maxTextureUnits allocator [] state = (.ok [], state) := rfl

end UniformLayout
