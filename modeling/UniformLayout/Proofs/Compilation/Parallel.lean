import UniformLayout.Proofs.Compilation.Failure
import Mathlib.Logic.Function.Basic
import Mathlib.Logic.Relation

/-!
# Units that are compiled side by side

A call of `compile` takes the registry's lock for one operation at a time, so the calls of several
units interleave. A `Worker` is one such call: `Worker.step` goes from one operation on what the
units share to the next; making the plan and building a schema, which only read, are one step each.
`Parallel.run` lets the workers take their steps in the order of a schedule.

Main statement: `exists_solo`. A worker that is alone does what `compile` does.
-/

namespace UniformLayout

/-- How far the compilation of a unit has come. -/
inductive Phase where
  | planning
  | registering (rest : List PlannedType)
  | looking (rest : List PlannedType)
  /-- The type has been looked up, and its schema is there. -/
  | claiming (emitted : EmittedType) (rest : List PlannedType)
  | writing (emitted : EmittedType) (rest : List PlannedType)
  | noting (emitted : EmittedType) (rest : List PlannedType)
  | givingUp (emitted : EmittedType) (error : StorageError)
  | rollingBack (error : CompileError)
  | finished (result : Except CompileError CompiledUnit)

/-- The compilation of one unit. -/
structure Worker where
  phase : Phase := .planning
  plan : Plan := ⟨[], [], []⟩
  slots : SlotTable := []
  registrations : List Registration := []
  schemas : SchemaTable := []
  /-- The types that the unit has, up to now. -/
  listed : List EmittedType := []
  generated : List String := []

/-- What the units share. -/
structure Common (τ : Type) where
  registry : Registry
  artifacts : τ

namespace Worker

variable {τ : Type}

/-- Plans the unit, and gives slots to its blocks. -/
def makePlan (settings : Settings) (unit : SourceUnit) (registry : Registry) (worker : Worker) :
    Worker :=
  match (unit.plan registry).result with
  | .error e => { worker with phase := .finished (.error e) }
  | .ok plan =>
    match (assignSlots settings.bindings.maxTextureUnits BindingPool.allocator plan.types
      { max := settings.bindings.maxBindingPoints }).1 with
    | .error e => { worker with phase := .finished (.error e) }
    | .ok slots => { worker with plan, slots, phase := .registering plan.types }

def register (planned : PlannedType) (rest : List PlannedType) (worker : Worker)
    (common : Common τ) : Worker × Common τ :=
  let (registration, registry) :=
    common.registry.register planned.declaration planned.contentHash
  ({ worker with
      phase := .registering rest
      registrations := worker.registrations ++ [registration] },
    { common with registry })

/-- The unit has a type and goes on to the next one. -/
def add (emitted : EmittedType) (rest : List PlannedType) (worker : Worker) : Worker :=
  { worker with phase := .looking rest, listed := worker.listed ++ [emitted] }

/-- Looks a type up and builds its schema. A type that was generated before needs no claim. -/
def look (limit : Nat) (planned : PlannedType) (rest : List PlannedType) (registry : Registry)
    (worker : Worker) : Worker :=
  match registry.identityOfHash? planned.contentHash with
  | none => { worker with phase := .rollingBack (.unresolvedType planned.name planned.name) }
  | some identity =>
    let descriptor := planned.known.getD ⟨identity, planned.layout⟩
    match descriptor.layout.toSchema ⟨registry, limit⟩ worker.schemas with
    | .error e => { worker with phase := .rollingBack e }
    | .ok (schema, schemas) =>
      let emitted : EmittedType :=
        { declaredName := planned.name, identity, descriptor, schema
          bindingSlot := worker.slots.lookup planned.name }
      if planned.known.isSome then { worker with schemas }.add emitted rest
      else { worker with schemas, phase := .claiming emitted rest }

/-- Asks for the claim on a type. A unit that does not get it has the type all the same. -/
def claim (emitted : EmittedType) (rest : List PlannedType) (worker : Worker)
    (common : Common τ) : Worker × Common τ :=
  match common.registry.beginGeneration emitted.identity.persistentId with
  | (false, _) => (worker.add emitted rest, common)
  | (true, registry) => ({ worker with phase := .writing emitted rest }, { common with registry })

def write (runtime : String) (sink : ArtifactSink τ) (emitted : EmittedType)
    (rest : List PlannedType) (worker : Worker) (common : Common τ) : Worker × Common τ :=
  match sink.write emitted.identity.generatedName (emitted.schema.hostSource runtime)
    common.artifacts with
  | (.error e, artifacts) =>
    ({ worker with phase := .givingUp emitted e }, { common with artifacts })
  | (.ok _, artifacts) => ({ worker with phase := .noting emitted rest }, { common with artifacts })

/-- Notes that a type has been written. -/
def note (emitted : EmittedType) (rest : List PlannedType) (worker : Worker) (common : Common τ) :
    Worker × Common τ :=
  ({ worker.add emitted rest with
      generated := worker.generated ++ [emitted.identity.generatedName] },
    { common with
      registry :=
        common.registry.completeGeneration emitted.identity.persistentId emitted.descriptor })

def giveUp (emitted : EmittedType) (error : StorageError) (worker : Worker) (common : Common τ) :
    Worker × Common τ :=
  ({ worker with phase := .rollingBack (.sink error) },
    { common with registry := common.registry.abandonGeneration emitted.identity.persistentId })

def rollBack (error : CompileError) (worker : Worker) (common : Common τ) : Worker × Common τ :=
  ({ worker with phase := .finished (.error error) },
    { common with registry := common.registry.rollBack worker.registrations })

section

variable {emitted : EmittedType} {rest : List PlannedType} {worker : Worker} {common : Common τ}

theorem claim_of_refused {registry : Registry}
    (h : common.registry.beginGeneration emitted.identity.persistentId = (false, registry)) :
    worker.claim emitted rest common = (worker.add emitted rest, common) := by
  rw [claim, h]

theorem claim_of_granted {registry : Registry}
    (h : common.registry.beginGeneration emitted.identity.persistentId = (true, registry)) :
    worker.claim emitted rest common =
      ({ worker with phase := .writing emitted rest }, { common with registry }) := by
  rw [claim, h]

variable {runtime : String} {sink : ArtifactSink τ} {artifacts : τ}

theorem write_of_error {e : StorageError} (h : sink.write emitted.identity.generatedName
      (emitted.schema.hostSource runtime) common.artifacts = (.error e, artifacts)) :
    worker.write runtime sink emitted rest common =
      ({ worker with phase := .givingUp emitted e }, { common with artifacts }) := by
  rw [write, h]

theorem write_of_ok {answer : Unit} (h : sink.write emitted.identity.generatedName
      (emitted.schema.hostSource runtime) common.artifacts = (.ok answer, artifacts)) :
    worker.write runtime sink emitted rest common =
      ({ worker with phase := .noting emitted rest }, { common with artifacts }) := by
  rw [write, h]

end

def compiled (unit : SourceUnit) (worker : Worker) : CompiledUnit where
  key := unit.key
  types := worker.listed
  generated := worker.generated
  warnings := worker.plan.warnings
  anonymousBlocks := worker.plan.anonymousBlocks

/-- The next operation of a unit. -/
def step (settings : Settings) (sink : ArtifactSink τ) (unit : SourceUnit) (worker : Worker)
    (common : Common τ) : Worker × Common τ :=
  match worker.phase with
  | .planning => (worker.makePlan settings unit common.registry, common)
  | .registering [] => ({ worker with phase := .looking worker.plan.types }, common)
  | .registering (planned :: rest) => worker.register planned rest common
  | .looking [] => ({ worker with phase := .finished (.ok (worker.compiled unit)) }, common)
  | .looking (planned :: rest) =>
    (worker.look settings.bindings.maxTextureUnits planned rest common.registry, common)
  | .claiming emitted rest => worker.claim emitted rest common
  | .writing emitted rest => worker.write settings.output.runtime sink emitted rest common
  | .noting emitted rest => worker.note emitted rest common
  | .givingUp emitted error => worker.giveUp emitted error common
  | .rollingBack error => worker.rollBack error common
  | .finished _ => (worker, common)

end Worker

/-- Units at work on what they share. -/
structure Parallel (ι τ : Type) where
  common : Common τ
  workers : ι → Worker := fun _ => {}

namespace Parallel

variable {ι τ : Type} [DecidableEq ι]

/-- One unit has come further, and has changed what all of them share. -/
def put (system : Parallel ι τ) (i : ι) (after : Worker × Common τ) : Parallel ι τ where
  common := after.2
  workers := Function.update system.workers i after.1

@[simp] theorem put_common (system : Parallel ι τ) (i : ι) (after : Worker × Common τ) :
    (system.put i after).common = after.2 := rfl

@[simp] theorem put_workers_self (system : Parallel ι τ) (i : ι) (after : Worker × Common τ) :
    (system.put i after).workers i = after.1 :=
  Function.update_self ..

theorem put_workers_of_ne {i j : ι} (h : j ≠ i) (system : Parallel ι τ)
    (after : Worker × Common τ) : (system.put i after).workers j = system.workers j :=
  Function.update_of_ne h ..

/-- One unit takes a step. -/
def advance (settings : Settings) (sink : ArtifactSink τ) (units : ι → SourceUnit)
    (system : Parallel ι τ) (i : ι) : Parallel ι τ :=
  system.put i ((system.workers i).step settings sink (units i) system.common)

/-- The units take their steps in the order of a schedule. -/
def run (settings : Settings) (sink : ArtifactSink τ) (units : ι → SourceUnit)
    (system : Parallel ι τ) (schedule : List ι) : Parallel ι τ :=
  schedule.foldl (advance settings sink units) system

end Parallel

/-! ## A unit alone -/

section

variable {τ : Type} {settings : Settings} {sink : ArtifactSink τ} {unit : SourceUnit}

/-- A worker takes some steps while nobody else does. -/
def Steps (settings : Settings) (sink : ArtifactSink τ) (unit : SourceUnit) :
    Worker × Common τ → Worker × Common τ → Prop :=
  Relation.ReflTransGen fun before after => before.1.step settings sink unit before.2 = after

theorem steps_registering (types : List PlannedType) (worker : Worker) (common : Common τ) :
    Steps settings sink unit ({ worker with phase := .registering types }, common)
      ({ worker with
          phase := .looking worker.plan.types
          registrations := worker.registrations ++ (common.registry.registerAll
            (types.map fun planned => (planned.declaration, planned.contentHash))).1 },
        { common with
          registry := (common.registry.registerAll
            (types.map fun planned => (planned.declaration, planned.contentHash))).2 }) := by
  induction types generalizing worker common with
  | nil =>
    refine .single ?_
    rw [Registry.registerAll, List.map_nil, List.foldl_nil, List.append_nil]
    rfl
  | cons planned rest ih =>
    have hone := ih (worker.register planned rest common).1 (worker.register planned rest common).2
    rw [List.map_cons, Registry.registerAll_cons]
    simp only [Worker.register, List.append_assoc, List.singleton_append] at hone
    exact .head rfl hone

/-- The worker with the schemas and the written names of an emission. -/
def Worker.carry (worker : Worker) (state : EmissionState τ) : Worker :=
  { worker with schemas := state.schemas, generated := state.generated }

def EmissionState.common (state : EmissionState τ) : Common τ := ⟨state.registry, state.artifacts⟩

/-- What a worker is after the emission of a type, which has gone well or not. -/
def Worker.after (worker : Worker) (rest : List PlannedType)
    (emitted : Except CompileError EmittedType × EmissionState τ) : Worker :=
  match emitted.1 with
  | .error e => { worker.carry emitted.2 with phase := .rollingBack e }
  | .ok made => (worker.carry emitted.2).add made rest

/-- Writing one type, step by step. -/
theorem steps_generate (emitted : EmittedType) (rest : List PlannedType) (worker : Worker)
    (state : EmissionState τ) :
    let written := state.generate (settings.emissionScope sink worker.slots) emitted.identity
      emitted.descriptor emitted.schema
    Steps settings sink unit
      ({ worker.carry state with phase := .claiming emitted rest }, state.common)
      (worker.after rest (written.1.map fun _ => emitted, written.2), written.2.common) := by
  unfold EmissionState.generate
  dsimp only
  cases hb : state.registry.beginGeneration emitted.identity.persistentId with
  | mk granted claimed =>
    cases granted with
    | false => exact .single (Worker.claim_of_refused hb)
    | true =>
      have hclaim : Steps settings sink unit
          ({ worker.carry state with phase := .claiming emitted rest }, state.common)
          ({ worker.carry state with phase := .writing emitted rest },
            { state.common with registry := claimed }) :=
        .single (Worker.claim_of_granted hb)
      refine hclaim.trans ?_
      dsimp only [Settings.emissionScope]
      cases hw : sink.write emitted.identity.generatedName
        (emitted.schema.hostSource settings.output.runtime) state.artifacts with
      | mk answer artifacts =>
        cases answer with
        | error e =>
          have hwrite : Steps settings sink unit
              ({ worker.carry state with phase := .writing emitted rest },
                { state.common with registry := claimed })
              ({ worker.carry state with phase := .givingUp emitted e }, ⟨claimed, artifacts⟩) :=
            .single (Worker.write_of_error hw)
          exact hwrite.trans (.single rfl)
        | ok =>
          have hwrite : Steps settings sink unit
              ({ worker.carry state with phase := .writing emitted rest },
                { state.common with registry := claimed })
              ({ worker.carry state with phase := .noting emitted rest }, ⟨claimed, artifacts⟩) :=
            .single (Worker.write_of_ok hw)
          exact hwrite.trans (.single rfl)

/-- Emitting one type, step by step. -/
theorem steps_emitType (planned : PlannedType) (rest : List PlannedType) (worker : Worker)
    (state : EmissionState τ) :
    let emitted := emitType (settings.emissionScope sink worker.slots) planned state
    Steps settings sink unit
      ({ worker.carry state with phase := .looking (planned :: rest) }, state.common)
      (worker.after rest emitted, emitted.2.common) := by
  unfold emitType
  have hlook : Steps settings sink unit
      ({ worker.carry state with phase := .looking (planned :: rest) }, state.common)
      (({ worker.carry state with phase := .looking (planned :: rest) }).look
        settings.bindings.maxTextureUnits planned rest state.registry, state.common) :=
    .single rfl
  refine hlook.trans ?_
  unfold Worker.look
  cases hi : state.registry.identityOfHash? planned.contentHash with
  | none => exact .refl
  | some identity =>
    dsimp only [Settings.emissionScope, Worker.carry]
    cases hs : (planned.known.getD ⟨identity, planned.layout⟩).layout.toSchema
      ⟨state.registry, settings.bindings.maxTextureUnits⟩ state.schemas with
    | error e => exact .refl
    | ok made =>
      obtain ⟨schema, schemas⟩ := made
      dsimp only
      split
      · exact .refl
      · exact steps_generate _ rest worker { state with schemas }

/-- Emitting the types of a plan, step by step. -/
theorem steps_emitAll_ok {types : List PlannedType} (worker : Worker)
    {state after : EmissionState τ} {made : List EmittedType}
    (h : emitAll (settings.emissionScope sink worker.slots) types state = (.ok made, after)) :
    Steps settings sink unit ({ worker.carry state with phase := .looking types }, state.common)
      ({ worker.carry after with phase := .looking [], listed := worker.listed ++ made },
        after.common) := by
  induction types generalizing worker state made with
  | nil =>
    obtain ⟨hmade, rfl⟩ := Prod.mk.inj h
    obtain rfl := Except.ok.inj hmade
    rw [List.append_nil]
    exact .refl
  | cons planned rest ih =>
    have hone := @steps_emitType τ settings sink unit planned rest worker state
    rw [emitAll] at h
    cases he : emitType (settings.emissionScope sink worker.slots) planned state with
    | mk answer next =>
      rw [he] at h hone
      cases answer with
      | error e => cases (Prod.mk.inj h).1
      | ok emitted =>
        cases ho : emitAll (settings.emissionScope sink worker.slots) rest next with
        | mk others last =>
          dsimp only at h
          rw [ho] at h
          obtain ⟨hothers, rfl⟩ := Prod.mk.inj h
          cases others with
          | error e => cases hothers
          | ok others =>
            obtain rfl := Except.ok.inj hothers
            rw [List.append_cons]
            exact hone.trans (ih (worker.add emitted rest) ho)

/-- A refused write ends the emission. -/
theorem steps_emitAll_error {types : List PlannedType} (worker : Worker)
    {state after : EmissionState τ} {e : CompileError}
    (h : emitAll (settings.emissionScope sink worker.slots) types state = (.error e, after)) :
    ∃ listed, Steps settings sink unit
      ({ worker.carry state with phase := .looking types }, state.common)
      ({ worker.carry after with phase := .rollingBack e, listed }, after.common) := by
  induction types generalizing worker state with
  | nil => cases (Prod.mk.inj h).1
  | cons planned rest ih =>
    have hone := @steps_emitType τ settings sink unit planned rest worker state
    rw [emitAll] at h
    cases he : emitType (settings.emissionScope sink worker.slots) planned state with
    | mk answer next =>
      rw [he] at h hone
      cases answer with
      | error e =>
        obtain ⟨herror, rfl⟩ := Prod.mk.inj h
        obtain rfl := Except.error.inj herror
        exact ⟨worker.listed, hone⟩
      | ok emitted =>
        cases ho : emitAll (settings.emissionScope sink worker.slots) rest next with
        | mk others last =>
          dsimp only at h
          rw [ho] at h
          obtain ⟨hothers, rfl⟩ := Prod.mk.inj h
          cases others with
          | ok others => cases hothers
          | error e =>
            obtain rfl := Except.error.inj hothers
            obtain ⟨listed, hrest⟩ := ih (worker.add emitted rest) ho
            exact ⟨listed, hone.trans hrest⟩

/-- **One unit.** A worker that is alone finishes with the result of `compile`, and leaves the same
registry and the same artifacts. -/
theorem exists_solo (settings : Settings) (sink : ArtifactSink τ) (unit : SourceUnit)
    (common : Common τ) :
    let slots : BindingPool := { max := settings.bindings.maxBindingPoints }
    let outcome := compile settings BindingPool.allocator sink unit
      ⟨common.registry, slots, common.artifacts⟩
    ∃ last : Worker, last.phase = .finished outcome.1.result ∧
      Steps settings sink unit ({}, common) (last, ⟨outcome.2.registry, outcome.2.artifacts⟩) := by
  have hplan : Steps settings sink unit ({}, common)
      (({} : Worker).makePlan settings unit common.registry, common) := .single rfl
  unfold compile
  unfold Worker.makePlan at hplan
  dsimp only at hplan ⊢
  rcases hp : unit.plan common.registry with ⟨notices, e | plan⟩
  · rw [hp] at hplan
    exact ⟨_, rfl, hplan⟩
  · rw [hp] at hplan
    dsimp only at hplan ⊢
    cases ha : assignSlots settings.bindings.maxTextureUnits BindingPool.allocator plan.types
      { max := settings.bindings.maxBindingPoints } with
    | mk answer slots =>
      rw [ha] at hplan
      cases answer with
      | error e => exact ⟨_, rfl, hplan⟩
      | ok given =>
        dsimp only at hplan ⊢
        have hregistered := hplan.trans
          (steps_registering plan.types { plan, slots := given } common)
        unfold Plan.emit
        generalize common.registry.registerAll
          (plan.types.map fun planned => (planned.declaration, planned.contentHash)) = registered
            at hregistered ⊢
        obtain ⟨registrations, registry⟩ := registered
        dsimp only at hregistered ⊢
        let worker : Worker := { plan, slots := given, registrations }
        rw [show ({ runtime := settings.output.runtime
                    maxTextureUnits := settings.bindings.maxTextureUnits, sink, slots := given } :
            EmissionScope τ) = settings.emissionScope sink given from rfl]
        cases he : emitAll (settings.emissionScope sink given) plan.types
          { registry, artifacts := common.artifacts } with
        | mk emitted state =>
          cases emitted with
          | error e =>
            obtain ⟨listed, hsteps⟩ := @steps_emitAll_error _ _ _ unit _ worker _ _ _ he
            exact ⟨_, rfl, hregistered.trans (hsteps.trans (.single rfl))⟩
          | ok types =>
            have hsteps := @steps_emitAll_ok _ _ _ unit _ worker _ _ _ he
            exact ⟨_, rfl, hregistered.trans (hsteps.trans (.single rfl))⟩

end

end UniformLayout
