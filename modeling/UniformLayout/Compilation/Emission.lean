import UniformLayout.Artifact.Wrapper
import UniformLayout.Compilation.Plan
import UniformLayout.Instance
import UniformLayout.Registry.Generation
import UniformLayout.Schema.Build
import UniformLayout.Sink

/-!
# Emission

The last step of compiling a unit writes the host source of every planned type that nobody has
written yet, and collects what the host needs of each type. A write that is refused ends the unit;
the claim on the type is given up, and what was written before stays.

Main statement: `emitAll_nil`.
-/

namespace UniformLayout

/-- A compiled type, as the host gets it. -/
structure EmittedType where
  declaredName : String
  identity : TypeIdentity
  descriptor : LayoutDescriptor
  schema : TypeSchema
  /-- The slot of a uniform block. -/
  bindingSlot : Option Nat

namespace EmittedType

def artifactKey (emitted : EmittedType) : String := emitted.identity.generatedName

/-- A new instance as the host uses it: the members of a block with a slot are located at their
offsets, free uniforms wait to be located, and plain structs stay detached. -/
def instantiate (emitted : EmittedType) : StructInstance :=
  let inst := emitted.schema.instantiate
  match emitted.schema.kind with
  | .uniformBlock .. => if emitted.bindingSlot.isSome then inst.locateAtOffsets.attach else inst
  | .uniformSet => inst.attach
  | .struct => inst

end EmittedType

/-- What emission changes. -/
structure EmissionState (τ : Type) where
  registry : Registry
  artifacts : τ
  schemas : SchemaTable := []
  /-- The names of the host types that were written. -/
  generated : List String := []

/-- What emission depends on. -/
structure EmissionScope (τ : Type) where
  runtime : String
  maxTextureUnits : Nat
  sink : ArtifactSink τ
  slots : SlotTable

variable {τ : Type}

/-- Writes a host type, if its record can be claimed. -/
def EmissionState.generate (scope : EmissionScope τ) (identity : TypeIdentity)
    (descriptor : LayoutDescriptor) (schema : TypeSchema) (state : EmissionState τ) :
    Except CompileError Unit × EmissionState τ :=
  let id := identity.persistentId
  match state.registry.beginGeneration id with
  | (false, _) => (.ok (), state)
  | (true, claimed) =>
    let text := schema.hostSource scope.runtime
    match scope.sink.write identity.generatedName text state.artifacts with
    | (.error e, artifacts) =>
      (.error (.sink e), { state with registry := claimed.abandonGeneration id, artifacts })
    | (.ok _, artifacts) =>
      (.ok (),
        { state with
          registry := claimed.completeGeneration id descriptor
          artifacts
          generated := state.generated ++ [identity.generatedName] })

def emitType (scope : EmissionScope τ) (planned : PlannedType) (state : EmissionState τ) :
    Except CompileError EmittedType × EmissionState τ :=
  match state.registry.identityOfHash? planned.contentHash with
  | none => (.error (.unresolvedType planned.name planned.name), state)
  | some identity =>
    let descriptor := planned.known.getD ⟨identity, planned.layout⟩
    match descriptor.layout.toSchema ⟨state.registry, scope.maxTextureUnits⟩ state.schemas with
    | .error e => (.error e, state)
    | .ok (schema, schemas) =>
      let emitted : EmittedType :=
        { declaredName := planned.name, identity, descriptor, schema
          bindingSlot := scope.slots.lookup planned.name }
      let state := { state with schemas }
      if planned.known.isSome then (.ok emitted, state)
      else
        let (result, state) := state.generate scope identity descriptor schema
        (result.map fun _ => emitted, state)

def emitAll (scope : EmissionScope τ) :
    List PlannedType → EmissionState τ → Except CompileError (List EmittedType) × EmissionState τ
  | [], state => (.ok [], state)
  | planned :: rest, state =>
    match emitType scope planned state with
    | (.error e, state) => (.error e, state)
    | (.ok emitted, state) =>
      let (others, state) := emitAll scope rest state
      (others.map (emitted :: ·), state)

@[simp] theorem emitAll_nil (scope : EmissionScope τ) (state : EmissionState τ) :
    emitAll scope [] state = (.ok [], state) := rfl

end UniformLayout
