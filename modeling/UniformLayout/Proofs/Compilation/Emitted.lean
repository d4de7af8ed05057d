import UniformLayout.Proofs.Compilation.Failure
import UniformLayout.Proofs.Compilation.Origin
import UniformLayout.Proofs.Schema.Built

/-!
# What a compiled unit returns

A unit that is compiled returns one type for every type of its plan. Its schema is built of the layout
of the plan, or kept from a layout with the same content hash; so it has every property that building
schemas establishes (`PlannedType.EmittedAs`).

* `emitAll_emitted`: the types that emission returns, by induction on the plan.

Main statement: `emitted_of_compile`.
-/

namespace UniformLayout

variable {σ τ : Type}

/-- What is returned for a type of a plan. -/
structure PlannedType.EmittedAs (slots : SlotTable) (Q : String → TypeSchema → Prop)
    (planned : PlannedType) (emitted : EmittedType) : Prop where
  name : emitted.declaredName = planned.name
  identity : emitted.identity.contentHash = planned.contentHash
  slot : emitted.bindingSlot = slots.lookup planned.name
  layout : emitted.descriptor.layout = planned.layout
  schema : Q planned.layout.contentHash emitted.schema

section

variable {scope : EmissionScope τ} {state : EmissionState τ}

theorem wellFormed_generate (h : state.registry.WellFormed) (identity : TypeIdentity)
    (descriptor : LayoutDescriptor) (schema : TypeSchema) :
    (state.generate scope identity descriptor schema).2.registry.WellFormed := by
  have hclaimed := Registry.wellFormed_beginGeneration h identity.persistentId
  unfold EmissionState.generate
  dsimp only
  split
  · exact h
  · rename_i claimed hb
    rw [hb] at hclaimed
    split
    · exact Registry.wellFormed_abandonGeneration hclaimed _
    · exact Registry.wellFormed_completeGeneration hclaimed _ _

theorem schemas_generate (identity : TypeIdentity) (descriptor : LayoutDescriptor)
    (schema : TypeSchema) :
    (state.generate scope identity descriptor schema).2.schemas = state.schemas := by
  unfold EmissionState.generate
  dsimp only
  split
  · rfl
  · split
    · rfl
    · rfl

theorem Registry.Consistent.contentHash_identityOfHash {registry : Registry}
    (h : registry.Consistent) {hash : String} {identity : TypeIdentity}
    (hi : registry.identityOfHash? hash = some identity) : identity.contentHash = hash := by
  have hknown : (registry.byHash.lookup hash).isSome := by
    cases hl : registry.byHash.lookup hash with
    | none =>
      unfold Registry.identityOfHash? Registry.ofHash? Registry.recordAt? at hi
      rw [hl] at hi
      cases hi
    | some index => rfl
  obtain ⟨index, record, -, hhash, hidentity, -⟩ := h.record_of_hash hknown
  obtain rfl := Option.some.inj (hi.symm.trans hidentity)
  exact hhash

variable {P : StructLayout → Prop} {Q : String → TypeSchema → Prop}

theorem emitType_emitted
    (step : ∀ registry, SchemaScope.Step ⟨registry, scope.maxTextureUnits⟩ P Q)
    {planned : PlannedType}
    (hl : ∀ descriptor, planned.known = some descriptor → descriptor.layout = planned.layout)
    (hp : planned.layout.Throughout P) (hw : state.registry.WellFormed) (hk : state.schemas.All Q)
    {emitted : EmittedType} (h : (emitType scope planned state).1 = .ok emitted) :
    planned.EmittedAs scope.slots Q emitted ∧
      (emitType scope planned state).2.registry.WellFormed ∧
      (emitType scope planned state).2.schemas.All Q := by
  unfold emitType at h ⊢
  split at h
  · cases h
  · rename_i identity hi
    have hlayout : (planned.known.getD ⟨identity, planned.layout⟩).layout = planned.layout := by
      cases hknown : planned.known with
      | none => rfl
      | some descriptor => exact hl descriptor hknown
    have hidentity := hw.consistent.contentHash_identityOfHash hi
    dsimp only at h ⊢
    split at h
    · cases h
    · rename_i schema schemas hs
      rw [hlayout] at hs
      obtain ⟨hschema, hafter⟩ := toSchema_induction (step state.registry) hp hk hs
      split at h
      · rename_i hknown
        obtain rfl := Except.ok.inj h
        rw [if_pos hknown]
        exact ⟨⟨rfl, hidentity, rfl, hlayout, hschema⟩, hw, hafter⟩
      · rename_i hknown
        rw [if_neg hknown]
        have hwritten := @wellFormed_generate τ scope { state with schemas } hw identity
          (planned.known.getD ⟨identity, planned.layout⟩) schema
        have hkept := @schemas_generate τ scope { state with schemas } identity
          (planned.known.getD ⟨identity, planned.layout⟩) schema
        generalize EmissionState.generate scope identity
          (planned.known.getD ⟨identity, planned.layout⟩) schema { state with schemas } =
            generated at h hwritten hkept ⊢
        obtain ⟨e | written, after⟩ := generated
        · cases h
        · obtain rfl := Except.ok.inj h
          refine ⟨⟨rfl, hidentity, rfl, hlayout, hschema⟩, hwritten, ?_⟩
          rw [show after.schemas = schemas from hkept]
          exact hafter

theorem emitAll_emitted
    (step : ∀ registry, SchemaScope.Step ⟨registry, scope.maxTextureUnits⟩ P Q)
    {types : List PlannedType}
    (hl : ∀ planned ∈ types, ∀ descriptor, planned.known = some descriptor →
      descriptor.layout = planned.layout)
    (hp : ∀ planned ∈ types, planned.layout.Throughout P) (hw : state.registry.WellFormed)
    (hk : state.schemas.All Q) {emitted : List EmittedType}
    (h : (emitAll scope types state).1 = .ok emitted) :
    List.Forall₂ (PlannedType.EmittedAs scope.slots Q) types emitted := by
  induction types generalizing state emitted with
  | nil =>
    obtain rfl := Except.ok.inj h
    exact .nil
  | cons planned rest ih =>
    obtain ⟨hlfirst, hlrest⟩ := List.forall_mem_cons.1 hl
    obtain ⟨hpfirst, hprest⟩ := List.forall_mem_cons.1 hp
    unfold emitAll at h
    rcases ht : emitType scope planned state with ⟨e | first, after⟩
    · rw [ht] at h
      cases h
    · obtain ⟨hfirst, hwafter, hkafter⟩ := emitType_emitted step hlfirst hpfirst hw hk (by rw [ht])
      rw [ht] at h hwafter hkafter
      dsimp only at h
      cases ho : (emitAll scope rest after).1 with
      | error e =>
        rw [ho] at h
        cases h
      | ok others =>
        rw [ho] at h
        obtain rfl := Except.ok.inj h
        exact .cons hfirst (ih hlrest hprest hwafter hkafter ho)

end

/-- The types of a plan are registered, and nothing is emitted yet. -/
def Plan.start (plan : Plan) (registry : Registry) (artifacts : τ) : EmissionState τ where
  registry := (registry.registerAll
    (plan.types.map fun planned => (planned.declaration, planned.contentHash))).2
  artifacts := artifacts

/-- A call that succeeds ends with the emission of its plan. -/
theorem compile_emits {settings : Settings} {allocator : SlotAllocator σ} {sink : ArtifactSink τ}
    {unit : SourceUnit} {work : Workspace σ τ} {compiled : CompiledUnit}
    (h : (compile settings allocator sink unit work).1.result = .ok compiled) :
    ∃ plan given state, (unit.plan work.registry).result = .ok plan ∧
      (assignSlots settings.bindings.maxTextureUnits allocator plan.types work.slots).1 =
        .ok given ∧
      emitAll (settings.emissionScope sink given) plan.types
        (plan.start work.registry work.artifacts) = (.ok compiled.types, state) ∧
      (compile settings allocator sink unit work).2.registry = state.registry ∧
      compiled = { key := unit.key, types := compiled.types, generated := state.generated
                   warnings := plan.warnings, anonymousBlocks := plan.anonymousBlocks } := by
  unfold compile at h ⊢
  rcases hp : unit.plan work.registry with ⟨notices, e | plan⟩
  · rw [hp] at h
    cases h
  · rw [hp] at h
    dsimp only at h ⊢
    rcases ha : assignSlots settings.bindings.maxTextureUnits allocator plan.types work.slots with
      ⟨e | given, slots⟩
    · rw [ha] at h
      cases h
    · rw [ha] at h
      dsimp only at h ⊢
      unfold Plan.emit at h ⊢
      dsimp only at h ⊢
      split at h
      · cases h
      · rename_i types state he
        obtain rfl := Except.ok.inj h
        unfold Settings.emissionScope
        exact ⟨plan, given, state, rfl, by rw [ha], he, rfl, rfl⟩

/-- What a call that succeeds consists of. -/
theorem compile_eq_ok {settings : Settings} {allocator : SlotAllocator σ} {sink : ArtifactSink τ}
    {unit : SourceUnit} {work : Workspace σ τ} {compiled : CompiledUnit}
    (h : (compile settings allocator sink unit work).1.result = .ok compiled) :
    ∃ plan given, (unit.plan work.registry).result = .ok plan ∧
      (assignSlots settings.bindings.maxTextureUnits allocator plan.types work.slots).1 =
        .ok given ∧
      (emitAll (settings.emissionScope sink given) plan.types
        { registry := (work.registry.registerAll
            (plan.types.map fun planned => (planned.declaration, planned.contentHash))).2
          artifacts := work.artifacts }).1 = .ok compiled.types := by
  obtain ⟨plan, given, state, hplan, ha, he, -⟩ := compile_emits h
  exact ⟨plan, given, hplan, ha, congrArg Prod.fst he⟩

/-- **Results.** A unit that is compiled returns one type for each type of its plan, and the schemas
have every property that building schemas establishes. -/
theorem emitted_of_compile {settings : Settings} {allocator : SlotAllocator σ}
    {sink : ArtifactSink τ} {unit : SourceUnit} {work : Workspace σ τ} {compiled : CompiledUnit}
    {P : StructLayout → Prop} {Q : String → TypeSchema → Prop}
    (step : ∀ registry, SchemaScope.Step ⟨registry, settings.bindings.maxTextureUnits⟩ P Q)
    (reached : Reached settings work.registry) (ids : unit.FindsIds work.registry)
    {plan : Plan} (hplan : (unit.plan work.registry).result = .ok plan)
    (hp : ∀ planned ∈ plan.types, planned.layout.Throughout P)
    (h : (compile settings allocator sink unit work).1.result = .ok compiled) :
    ∃ given, (assignSlots settings.bindings.maxTextureUnits allocator plan.types work.slots).1 =
        .ok given ∧
      List.Forall₂ (PlannedType.EmittedAs given Q) plan.types compiled.types := by
  obtain ⟨other, given, ho, ha, he⟩ := compile_eq_ok h
  obtain rfl := Except.ok.inj (ho.symm.trans hplan)
  obtain ⟨base, hsourced⟩ := plan_spec hplan
  have hregistered := Registry.registerAll_spec reached.settled.wellFormed (ids _ hplan)
  refine ⟨given, ha, @emitAll_emitted τ (settings.emissionScope sink given) _ P Q step _ ?_ hp
    hregistered.wellFormed (fun hash schema hl => by cases hl) _ he⟩
  intro planned hm descriptor hknown
  rcases hsourced.each planned hm with hfresh | ⟨other, -, hother, hlayout, -⟩
  · rw [hfresh.known] at hknown
    cases hknown
  · obtain rfl := Option.some.inj (hknown.symm.trans hother)
    exact hlayout.symm

/-- What a call that succeeds returns, whatever is known of its schemas. -/
theorem emittedAs_of_compile {settings : Settings} {allocator : SlotAllocator σ}
    {sink : ArtifactSink τ} {unit : SourceUnit} {work : Workspace σ τ} {compiled : CompiledUnit}
    (reached : Reached settings work.registry) (ids : unit.FindsIds work.registry)
    {plan : Plan} (hplan : (unit.plan work.registry).result = .ok plan)
    (h : (compile settings allocator sink unit work).1.result = .ok compiled) :
    ∃ given, (assignSlots settings.bindings.maxTextureUnits allocator plan.types work.slots).1 =
        .ok given ∧
      List.Forall₂ (PlannedType.EmittedAs given fun _ _ => True) plan.types compiled.types := by
  obtain ⟨base, hsourced⟩ := plan_spec hplan
  have hany : ∀ planned ∈ plan.types, planned.layout.Throughout fun _ => True :=
    hsourced.throughout (fun _ _ hd => (reached.settled.usable hd).layout.mono fun _ _ => trivial)
      fun _ _ _ => trivial
  exact emitted_of_compile (fun _ _ _ _ _ _ _ _ _ => trivial) reached ids hplan hany h

/-- The type that is returned for a planned one is found under its name. -/
theorem type?_of_emitted {slots : SlotTable} {Q : String → TypeSchema → Prop}
    {types : List PlannedType} {compiled : CompiledUnit}
    (ht : List.Forall₂ (PlannedType.EmittedAs slots Q) types compiled.types)
    (hn : (types.map PlannedType.name).Nodup) {planned : PlannedType} {emitted : EmittedType}
    (hm : emitted ∈ compiled.types) (he : planned.EmittedAs slots Q emitted) :
    compiled.type? planned.name = some emitted := by
  rw [← map_eq_of_forall₂ ht fun _ _ _ hr => hr.name] at hn
  rw [← he.name]
  exact find?_name_eq hn hm

end UniformLayout
