import UniformLayout.Compilation.Emission
import UniformLayout.Registry.Registration
import UniformLayout.Settings

/-!
# Compiling a unit

`compile` plans a unit, gives slots to its blocks, registers its types and emits them. A unit that
fails before its types are registered leaves the registry alone; when emission fails, the
registrations are rolled back.

Main statement: `compile_of_plan_error`.
-/

namespace UniformLayout

/-- A unit that has been compiled. -/
structure CompiledUnit where
  key : String
  /-- Every declared type, in the order of the dependencies. -/
  types : List EmittedType
  /-- The names of the host types that were written for the unit. -/
  generated : List String
  warnings : List SourceWarning
  anonymousBlocks : List Source.AnonymousBlock

def CompiledUnit.type? (unit : CompiledUnit) (name : String) : Option EmittedType :=
  unit.types.find? (·.declaredName == name)

/-- What compiling changes: the registry, the slots given out and the sources written. -/
structure Workspace (σ τ : Type) where
  registry : Registry
  slots : σ
  artifacts : τ

variable {σ τ : Type}

/-- Registers and emits the types of a plan, whose blocks have their slots. -/
def Plan.emit (plan : Plan) (key : String) (scope : EmissionScope τ) (registry : Registry)
    (artifacts : τ) : Except CompileError CompiledUnit × Registry × τ :=
  let (registrations, registry) :=
    registry.registerAll (plan.types.map fun planned => (planned.declaration, planned.contentHash))
  match emitAll scope plan.types { registry, artifacts } with
  | (.error e, state) => (.error e, state.registry.rollBack registrations, state.artifacts)
  | (.ok types, state) =>
    let unit : CompiledUnit :=
      { key, types, generated := state.generated, warnings := plan.warnings
        anonymousBlocks := plan.anonymousBlocks }
    (.ok unit, state.registry, state.artifacts)

def compile (settings : Settings) (allocator : SlotAllocator σ) (sink : ArtifactSink τ)
    (unit : SourceUnit) (work : Workspace σ τ) :
    Logged CompileError CompiledUnit × Workspace σ τ :=
  let ⟨notices, planned⟩ := unit.plan work.registry
  match planned with
  | .error e => (⟨notices, .error e⟩, work)
  | .ok plan =>
    let maxTextureUnits := settings.bindings.maxTextureUnits
    match assignSlots maxTextureUnits allocator plan.types work.slots with
    | (.error e, slots) => (⟨notices, .error e⟩, { work with slots })
    | (.ok given, slots) =>
      let scope : EmissionScope τ :=
        { runtime := settings.output.runtime, maxTextureUnits, sink, slots := given }
      let (result, registry, artifacts) := plan.emit unit.key scope work.registry work.artifacts
      (⟨notices, result⟩, { registry, slots, artifacts })

/-- A unit that cannot be planned changes nothing. -/
theorem compile_of_plan_error {settings : Settings} {allocator : SlotAllocator σ}
    {sink : ArtifactSink τ} {unit : SourceUnit} {work : Workspace σ τ} {notices : List Notice}
    {e : CompileError} (h : unit.plan work.registry = ⟨notices, .error e⟩) :
    compile settings allocator sink unit work = (⟨notices, .error e⟩, work) := by
  simp [compile, h]

end UniformLayout
