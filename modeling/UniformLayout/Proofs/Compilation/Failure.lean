import UniformLayout.Compilation
import UniformLayout.Proofs.Compilation.Emission

/-!
# Units that fail

A call of `compile` that fails leaves no trace but the host types that it has written. The
registries of a compiler are those that `Reached` describes; all of them are settled.

* `compile_noting`: a sink can be watched without changing anything else.
* `compile_course`: a call changes nothing, or emits the plan of its unit.
* `emit_spec`, `compile_spec`: what a call does to a settled registry.

Main statement: `compile_of_error`.
-/

namespace UniformLayout

variable {σ τ : Type}

/-! ## Watching the sink -/

/-- The same scope with a sink that notes every request. -/
def EmissionScope.noting (scope : EmissionScope τ) : EmissionScope (τ × List WriteRequest) where
  runtime := scope.runtime
  maxTextureUnits := scope.maxTextureUnits
  sink := scope.sink.noting
  slots := scope.slots

/-- The state without the requests. -/
def EmissionState.forget (state : EmissionState (τ × List WriteRequest)) : EmissionState τ where
  registry := state.registry
  artifacts := state.artifacts.1
  schemas := state.schemas
  generated := state.generated

theorem generate_noting (scope : EmissionScope τ) (identity : TypeIdentity)
    (descriptor : LayoutDescriptor) (schema : TypeSchema)
    (state : EmissionState (τ × List WriteRequest)) :
    Prod.map id EmissionState.forget
        (state.generate scope.noting identity descriptor schema) =
      state.forget.generate scope identity descriptor schema := by
  unfold EmissionState.generate
  dsimp only
  rw [show state.forget.registry = state.registry from rfl]
  rcases state.registry.beginGeneration identity.persistentId with ⟨_ | _, claimed⟩
  · rfl
  · dsimp only
    rw [show scope.noting.sink = scope.sink.noting from rfl,
      show scope.noting.runtime = scope.runtime from rfl, ArtifactSink.noting_write,
      show state.forget.artifacts = state.artifacts.1 from rfl]
    rcases scope.sink.write identity.generatedName (schema.hostSource scope.runtime)
      state.artifacts.1 with ⟨e | written, artifacts⟩
    · rfl
    · rfl

theorem map_forget {α β : Type} (f : α → β)
    (result : Except CompileError α × EmissionState (τ × List WriteRequest)) :
    Prod.map id EmissionState.forget (result.1.map f, result.2) =
      ((Prod.map id EmissionState.forget result).1.map f,
        (Prod.map id EmissionState.forget result).2) := rfl

theorem emitType_noting (scope : EmissionScope τ) (planned : PlannedType)
    (state : EmissionState (τ × List WriteRequest)) :
    Prod.map id EmissionState.forget (emitType scope.noting planned state) =
      emitType scope planned state.forget := by
  unfold emitType
  rw [show state.forget.registry = state.registry from rfl]
  cases state.registry.identityOfHash? planned.contentHash with
  | none => rfl
  | some identity =>
    dsimp only
    rw [show scope.noting.maxTextureUnits = scope.maxTextureUnits from rfl,
      show state.forget.schemas = state.schemas from rfl]
    rcases (planned.known.getD ⟨identity, planned.layout⟩).layout.toSchema
      ⟨state.registry, scope.maxTextureUnits⟩ state.schemas with e | ⟨schema, schemas⟩
    · rfl
    · dsimp only
      split
      · rfl
      · refine (map_forget _ (EmissionState.generate scope.noting identity
          (planned.known.getD ⟨identity, planned.layout⟩) schema { state with schemas })).trans ?_
        rw [generate_noting]
        rfl

theorem emitAll_noting (scope : EmissionScope τ) (types : List PlannedType)
    (state : EmissionState (τ × List WriteRequest)) :
    Prod.map id EmissionState.forget (emitAll scope.noting types state) =
      emitAll scope types state.forget := by
  induction types generalizing state with
  | nil => rfl
  | cons planned rest ih =>
    unfold emitAll
    rw [← emitType_noting]
    rcases emitType scope.noting planned state with ⟨e | emitted, after⟩
    · rfl
    · dsimp only [Prod.map_apply, id_eq]
      rw [← ih]
      rfl

theorem emit_noting (plan : Plan) (key : String) (scope : EmissionScope τ) (registry : Registry)
    (artifacts : τ) :
    Prod.map id (Prod.map id Prod.fst) (plan.emit key scope.noting registry (artifacts, [])) =
      plan.emit key scope registry artifacts := by
  unfold Plan.emit
  generalize registry.registerAll
    (plan.types.map fun planned => (planned.declaration, planned.contentHash)) = registered
  obtain ⟨registrations, registry⟩ := registered
  dsimp only
  have hsame := emitAll_noting scope plan.types { registry, artifacts := (artifacts, []) }
  rw [show EmissionState.forget { registry, artifacts := (artifacts, []) } =
    ({ registry, artifacts } : EmissionState τ) from rfl] at hsame
  rw [← hsame]
  rcases emitAll scope.noting plan.types { registry, artifacts := (artifacts, []) } with
    ⟨e | types, state⟩
  · rfl
  · rfl

/-- A workspace whose sink has been asked for nothing yet. -/
def Workspace.noting (work : Workspace σ τ) : Workspace σ (τ × List WriteRequest) where
  registry := work.registry
  slots := work.slots
  artifacts := (work.artifacts, [])

/-- What a call of `compile` asks its sink to store. -/
def compileRequests (settings : Settings) (allocator : SlotAllocator σ) (sink : ArtifactSink τ)
    (unit : SourceUnit) (work : Workspace σ τ) : List WriteRequest :=
  (compile settings allocator sink.noting unit work.noting).2.artifacts.2

/-- Noting the requests changes nothing else. -/
theorem compile_noting (settings : Settings) (allocator : SlotAllocator σ) (sink : ArtifactSink τ)
    (unit : SourceUnit) (work : Workspace σ τ) :
    (compile settings allocator sink.noting unit work.noting).1 =
        (compile settings allocator sink unit work).1 ∧
      (compile settings allocator sink.noting unit work.noting).2.registry =
        (compile settings allocator sink unit work).2.registry ∧
      (compile settings allocator sink.noting unit work.noting).2.slots =
        (compile settings allocator sink unit work).2.slots ∧
      (compile settings allocator sink.noting unit work.noting).2.artifacts.1 =
        (compile settings allocator sink unit work).2.artifacts := by
  unfold compile
  rw [show work.noting.registry = work.registry from rfl]
  rcases unit.plan work.registry with ⟨notices, e | plan⟩
  · exact ⟨rfl, rfl, rfl, rfl⟩
  · dsimp only
    rw [show work.noting.slots = work.slots from rfl]
    rcases assignSlots settings.bindings.maxTextureUnits allocator plan.types work.slots with
      ⟨e | given, slots⟩
    · exact ⟨rfl, rfl, rfl, rfl⟩
    · dsimp only
      have hsame := emit_noting plan unit.key
        { runtime := settings.output.runtime
          maxTextureUnits := settings.bindings.maxTextureUnits, sink, slots := given }
        work.registry work.artifacts
      rw [← hsame]
      exact ⟨rfl, rfl, rfl, rfl⟩

/-! ## Types that are ready -/

/-- The free uniforms of a plan whose blocks have their slots find their texture units. -/
theorem assignSlots_eq_ok {limit : Nat} {allocator : SlotAllocator σ} {types : List PlannedType}
    {slots : σ} {given : SlotTable} (h : (assignSlots limit allocator types slots).1 = .ok given) :
    ∀ planned ∈ types, planned.declaration.kind = .uniformSet →
      ∃ firsts, assignTextureUnits planned.layout.fields limit = .ok firsts := by
  induction types generalizing slots given with
  | nil =>
    intro planned hm
    cases hm
  | cons first rest ih =>
    unfold assignSlots at h
    split at h
    · rename_i hk
      refine List.forall_mem_cons.2 ⟨fun hset => ?_, ih h⟩
      rw [hk] at hset
      cases hset
    · split at h
      · cases h
      · rename_i firsts hu
        exact List.forall_mem_cons.2 ⟨fun _ => ⟨firsts, hu⟩, ih h⟩
    · rename_i hk
      split at h
      · cases h
      · refine List.forall_mem_cons.2 ⟨fun hset => ?_, ?_⟩
        · rw [hk] at hset
          cases hset
        · dsimp only at h
          rename_i slot state _
          cases hr : (assignSlots limit allocator rest state).1 with
          | error e =>
            rw [hr] at h
            cases h
          | ok others => exact ih hr

/-- A unit whose blocks cannot be served fails for want of a slot or of a texture unit. -/
theorem assignSlots_eq_error {limit : Nat} {allocator : SlotAllocator σ}
    {types : List PlannedType} {slots : σ} {e : CompileError}
    (h : (assignSlots limit allocator types slots).1 = .error e) : ∃ cause, e = .binding cause := by
  induction types generalizing slots with
  | nil => cases h
  | cons first rest ih =>
    unfold assignSlots at h
    split at h
    · exact ih h
    · split at h
      · exact ⟨_, (Except.error.inj h).symm⟩
      · exact ih h
    · split at h
      · exact ⟨_, (Except.error.inj h).symm⟩
      · rename_i slot state _
        dsimp only at h
        cases hr : (assignSlots limit allocator rest state).1 with
        | error other =>
          rw [hr] at h
          obtain rfl := Except.error.inj h
          exact ih hr
        | ok others =>
          rw [hr] at h
          cases h

/-- A call that fails has no plan, no slots, or stops in emission. -/
theorem compile_eq_error {settings : Settings} {allocator : SlotAllocator σ}
    {sink : ArtifactSink τ} {unit : SourceUnit} {work : Workspace σ τ} {e : CompileError}
    (h : (compile settings allocator sink unit work).1.result = .error e) :
    (unit.plan work.registry).result = .error e ∨
      ∃ plan, (unit.plan work.registry).result = .ok plan ∧
        ((assignSlots settings.bindings.maxTextureUnits allocator plan.types work.slots).1 =
            .error e ∨
          ∃ given, (assignSlots settings.bindings.maxTextureUnits allocator plan.types
            work.slots).1 = .ok given) := by
  unfold compile at h
  rcases hp : unit.plan work.registry with ⟨notices, other | plan⟩
  · rw [hp] at h
    obtain rfl : other = e := Except.error.inj h
    exact Or.inl rfl
  · rw [hp] at h
    dsimp only at h
    refine Or.inr ⟨plan, rfl, ?_⟩
    rcases ha : assignSlots settings.bindings.maxTextureUnits allocator plan.types work.slots with
      ⟨other | given, slots⟩
    · rw [ha] at h
      obtain rfl : other = e := Except.error.inj h
      exact Or.inl rfl
    · exact Or.inr ⟨given, rfl⟩

open Registry

variable {limit : Nat} {registry : Registry}

/-- What a plan takes from a settled registry is on offer there. -/
theorem offered_of_sourced {base : List StructLayout} {types : List PlannedType}
    (hs : registry.Settled limit) (h : Sourced registry base types) :
    ∀ layout ∈ base, layout.Throughout (registry.Offers limit) := by
  intro layout hm
  obtain ⟨hash, descriptor, hd, rfl⟩ := h.base layout hm
  exact (hs.usable hd).layout

/-- Once they are registered, the types of a plan are ready to be emitted. -/
theorem ready_of_sourced {base : List StructLayout} {types : List PlannedType}
    (hs : registry.Settled limit) (h : Sourced registry base types)
    (hu : ∀ planned ∈ types, planned.declaration.kind = .uniformSet →
      ∃ firsts, assignTextureUnits planned.layout.fields limit = .ok firsts)
    {after : Registry} {registrations : List Registration}
    (hr : RegistersAll registry after
      (types.map fun planned => (planned.declaration, planned.contentHash)) registrations) :
    ∀ planned ∈ types, planned.Ready limit after := by
  obtain ⟨minted, hcores⟩ := hr.cores
  intro planned hm
  refine ⟨hr.known _ (List.mem_map_of_mem hm), ?_⟩
  rcases h.each planned hm with hfresh | ⟨descriptor, hash, hk, hl, -, hd⟩
  · exact Or.inl ⟨hfresh, fun hkind => hu planned hm (hfresh.kind.symm.trans hkind)⟩
  · refine Or.inr ⟨descriptor, hk, hl, ?_⟩
    refine (hs.usable hd).layout.mono fun _ ho => ho.mono fun entry he => ?_
    rwa [begun_of_cores minted hcores]

/-- The search for new ids ends while the types of the unit are registered. A call for which it does
not end gives no result. -/
def SourceUnit.FindsIds (unit : SourceUnit) (registry : Registry) : Prop :=
  ∀ plan, (unit.plan registry).result = .ok plan →
    registry.FindsIds (plan.types.map fun planned => (planned.declaration, planned.contentHash))

/-- What has to be known of a plan before its types are registered and emitted. -/
structure Plan.Emittable (plan : Plan) (registry : Registry) (limit : Nat) : Prop where
  sourced : ∃ base, Sourced registry base plan.types
  ids : registry.FindsIds
    (plan.types.map fun planned => (planned.declaration, planned.contentHash))
  units : ∀ planned ∈ plan.types, planned.declaration.kind = .uniformSet →
    ∃ firsts, assignTextureUnits planned.layout.fields limit = .ok firsts

/-- The plan of a unit can be emitted once its blocks have their slots. -/
theorem emittable_of_plan {unit : SourceUnit} {plan : Plan}
    (hplan : (unit.plan registry).result = .ok plan) (ids : unit.FindsIds registry)
    {allocator : SlotAllocator σ} {slots : σ} {given : SlotTable}
    (ha : (assignSlots limit allocator plan.types slots).1 = .ok given) :
    plan.Emittable registry limit :=
  ⟨plan_spec hplan, ids plan hplan, assignSlots_eq_ok ha⟩

/-- The types of a plan are emitted step by step once they have been registered, which begins none of
them. -/
theorem Plan.Emittable.run {plan : Plan} (h : plan.Emittable registry limit)
    (hs : registry.Settled limit) (scope : EmissionScope τ) (hlimit : scope.maxTextureUnits = limit)
    (artifacts : τ) {after : Registry} (hafter : after = (registry.registerAll
      (plan.types.map fun planned => (planned.declaration, planned.contentHash))).2) :
    after.Settled limit ∧ after.begun = registry.begun ∧
      EmissionRun scope.sink scope.runtime limit plan.types
        { registry := after, artifacts := (artifacts, []) }
        (emitAll scope.noting plan.types { registry := after, artifacts := (artifacts, []) }) := by
  subst hafter
  obtain ⟨base, hsourced⟩ := h.sourced
  have hr := registerAll_spec hs.wellFormed h.ids
  have hsettled := settled_registerAll hs h.ids
  have hoffered := offered_of_sourced hs hsourced
  obtain ⟨minted, hcores⟩ := hr.cores
  have hbegun := begun_of_cores minted hcores
  refine ⟨hsettled, hbegun, ?_⟩
  exact emitAll_run scope.noting rfl hlimit { registry := _, artifacts := (artifacts, []) } hsettled
    (fun layout hm => (hoffered layout hm).mono fun _ ho => ho.mono fun _ he => hbegun ▸ he)
    hsourced.staged (ready_of_sourced hs hsourced h.units hr)

/-! ## One call -/

/-- Nothing of a failed call is left but the types that it has written: the aliases are as before,
the records from before stand where they stood, and every other record has been written. -/
structure Registry.FallsBack (requests : List WriteRequest) (before after : Registry) : Prop where
  aliases : SameAliases after before
  earlier : ∀ (i : Nat) (record : Record), before.records[i]? = some record →
    ∃ later, after.records[i]? = some later ∧ Keeps requests record later
  added : ∀ (i : Nat) (record : Record), before.records.length ≤ i →
    after.records[i]? = some record → record.declared = [] ∧ record.WrittenIn requests
  idle : ∀ record ∈ after.records, record.state ≠ .inProgress

theorem Record.WrittenIn.of_core {record other : Record} {requests : List WriteRequest}
    (h : record.WrittenIn requests) (hc : core other = core record) : other.WrittenIn requests := by
  obtain ⟨hi, hrest⟩ := Prod.mk.inj hc
  obtain ⟨hs, hd⟩ := Prod.mk.inj hrest
  refine ⟨hs.trans h.state, ?_, ?_⟩
  · rw [hd, hi]
    exact h.descriptor
  · rw [hi]
    exact h.accepted

theorem Registry.Settled.idle (h : registry.Settled limit) :
    ∀ record ∈ registry.records, record.state ≠ .inProgress := by
  intro record hm hs
  obtain ⟨i, hi⟩ := List.mem_iff_getElem?.1 hm
  have hbegun : (record.identity, record.state, record.descriptor) ∈ registry.begun :=
    mem_begun_iff.2 ⟨i, record, hi, rfl, by rw [hs]; decide⟩
  rw [(h.begun _ _ _ hbegun).1] at hs
  cases hs

theorem Registry.Settled.fallsBack (h : registry.Settled limit) (requests : List WriteRequest) :
    FallsBack requests registry registry := by
  refine ⟨.refl registry, fun i record hr => ⟨record, hr, Or.inl rfl⟩, ?_, h.idle⟩
  intro i record hle hr
  exact absurd (List.getElem?_eq_some_iff.1 hr).1 (Nat.not_lt.2 hle)

theorem Registry.Advances.sameAliases {requests : List WriteRequest} {before after : Registry}
    (h : Advances requests before after) : SameAliases after before := by
  refine ⟨by rw [h.indices], fun i => ?_⟩
  unfold aliasesAt
  cases hr : before.records[i]? with
  | none =>
    rw [List.getElem?_eq_none]
    rw [h.length]
    exact List.getElem?_eq_none_iff.1 hr
  | some record =>
    obtain ⟨later, hl, rfl | ⟨-, -, hd, -⟩⟩ := h.each i record hr
    · rw [hl]
    · rw [hl]
      exact hd

theorem eq_of_core {record other : Record} (hc : core other = core record)
    (hd : other.declared = record.declared) : other = record := by
  obtain ⟨hi, hrest⟩ := Prod.mk.inj hc
  obtain ⟨hs, hdescriptor⟩ := Prod.mk.inj hrest
  cases record
  cases other
  simp_all

/-- A record of the rolled back registry, seen through the registry that was rolled back. -/
theorem keeps_of_core {requests : List WriteRequest} {record mid written later : Record}
    (hk : Keeps requests mid written) (hmid : core mid = core record)
    (hlater : core later = core written) (hd : later.declared = record.declared) :
    Keeps requests record later := by
  rcases hk with rfl | ⟨hp, hi, -, hw⟩
  · exact Or.inl (eq_of_core (hlater.trans hmid) hd)
  · refine Or.inr ⟨?_, ?_, hd, hw.of_core hlater⟩
    · exact (congrArg (·.2.1) hmid).symm.trans hp
    · exact (congrArg Prod.fst hlater).trans (hi.trans (congrArg Prod.fst hmid))

/-- Rolling back the registrations of a unit after some of its types have been written. -/
theorem fallsBack_rollBack {before after grown : Registry} {requests : List WriteRequest}
    {pairs : List (TypeDeclaration × String)} {registrations : List Registration}
    (hr : RegistersAll before after pairs registrations) (hs : grown.Settled limit)
    (ha : Advances requests after grown) :
    (grown.rollBack registrations).Settled limit ∧
      FallsBack requests before (grown.rollBack registrations) := by
  have hsettled : (grown.rollBack registrations).Settled limit :=
    hs.of_begun (wellFormed_rollBack hs.wellFormed registrations)
      (begun_rollBack grown registrations)
  obtain ⟨haliases, hstay, hadded⟩ :=
    rollBack_spec hr hs.wellFormed ha.sameAliases (by rw [ha.indices]) ha.length
  obtain ⟨minted, hcores⟩ := hr.cores
  have hmid : ∀ i : Nat, (after.records[i]?).map core =
      if i < before.records.length then (before.records[i]?).map core
      else (minted[i - before.records.length]?).map fun identity => (identity, .pending, none) := by
    intro i
    have := congrArg (fun list => list[i]?) hcores
    simpa only [cores, List.getElem?_append, List.getElem?_map, List.length_map] using this
  refine ⟨hsettled, haliases, ?_, ?_, hsettled.idle⟩
  · intro i record hrecord
    have hlt := (List.getElem?_eq_some_iff.1 hrecord).1
    have hcore := hmid i
    rw [if_pos hlt, hrecord] at hcore
    obtain ⟨mid, hm, hmid⟩ := Option.map_eq_some_iff.1 hcore
    obtain ⟨written, hw, hk⟩ := ha.each i mid hm
    have hlater := hstay i hlt
    rw [hw] at hlater
    obtain ⟨later, hl, hcore⟩ := Option.map_eq_some_iff.1 hlater
    have hdeclared := haliases.aliasesAt i
    unfold aliasesAt at hdeclared
    rw [hl, hrecord] at hdeclared
    exact ⟨later, hl, keeps_of_core hk hmid hcore hdeclared⟩
  · intro i record hle hrecord
    obtain ⟨hdeclared, hs, j, hj, hcore⟩ := hadded i record hle hrecord
    obtain ⟨written, hw, hcore⟩ := Option.map_eq_some_iff.1 hcore
    refine ⟨hdeclared, ?_⟩
    have hlt : j < after.records.length := by
      rw [← ha.length]
      exact (List.getElem?_eq_some_iff.1 hw).1
    obtain ⟨other, ho, hk⟩ := ha.each j after.records[j] (List.getElem?_eq_getElem hlt)
    obtain rfl := Option.some.inj (hw.symm.trans ho)
    rcases hk with rfl | ⟨-, -, -, hwritten⟩
    · -- A minted type that was not written is pending, and has been removed.
      have hpending := hmid j
      rw [if_neg (Nat.not_lt.2 hj), List.getElem?_eq_getElem hlt, Option.map_some] at hpending
      obtain ⟨identity, -, he⟩ := Option.map_eq_some_iff.1 hpending.symm
      exact absurd (congrArg (·.2.1) (hcore.symm.trans he.symm)) hs
    · exact hwritten.of_core hcore.symm

/-- Emitting a plan whose blocks have their slots: a failure comes from the sink, and falls back. -/
theorem emit_spec {plan : Plan} (h : plan.Emittable registry limit) (hs : registry.Settled limit)
    (key : String) (scope : EmissionScope τ) (hlimit : scope.maxTextureUnits = limit)
    (artifacts : τ) :
    (plan.emit key scope.noting registry (artifacts, [])).2.1.Settled limit ∧
      ∀ e, (plan.emit key scope.noting registry (artifacts, [])).1 = .error e →
        (∃ cause, scope.sink.Refuses cause ∧ e = .sink cause) ∧
          registry.FallsBack (plan.emit key scope.noting registry (artifacts, [])).2.2.2
            (plan.emit key scope.noting registry (artifacts, [])).2.1 := by
  have hr := registerAll_spec hs.wellFormed h.ids
  obtain ⟨hsettled, -, hrun⟩ := h.run hs scope hlimit artifacts rfl
  unfold Plan.emit
  generalize registry.registerAll
    (plan.types.map fun planned => (planned.declaration, planned.contentHash)) = registered at *
  obtain ⟨registrations, after⟩ := registered
  dsimp only at *
  obtain ⟨hprogress, hresult⟩ := hrun.spec hsettled
  generalize emitAll scope.noting plan.types { registry := after, artifacts := (artifacts, []) } =
    emitted at *
  obtain ⟨e | types, state⟩ := emitted
  · obtain ⟨hback, hfalls⟩ := fallsBack_rollBack hr hprogress.settled hprogress.advances
    refine ⟨hback, fun error he => ⟨?_, hfalls⟩⟩
    obtain rfl := Except.error.inj he
    rcases hresult with ⟨cause, hrefuses, hc⟩ | ⟨types, hc⟩
    · exact ⟨cause, hrefuses, Except.error.inj hc⟩
    · cases hc
  · refine ⟨hprogress.settled, fun error he => ?_⟩
    cases he

/-- The scope in which `compile` emits a unit. -/
def Settings.emissionScope (settings : Settings) (sink : ArtifactSink τ) (slots : SlotTable) :
    EmissionScope τ where
  runtime := settings.output.runtime
  maxTextureUnits := settings.bindings.maxTextureUnits
  sink := sink
  slots := slots

/-- Behind the slots, only the sink makes a unit fail. -/
theorem sink_of_emission_error {settings : Settings} {allocator : SlotAllocator σ}
    {sink : ArtifactSink τ} {unit : SourceUnit} {work : Workspace σ τ}
    (hs : work.registry.Settled settings.bindings.maxTextureUnits)
    (ids : unit.FindsIds work.registry) {plan : Plan}
    (hplan : (unit.plan work.registry).result = .ok plan) {given : SlotTable}
    (ha : (assignSlots settings.bindings.maxTextureUnits allocator plan.types work.slots).1 =
      .ok given) {e : CompileError}
    (h : (compile settings allocator sink unit work).1.result = .error e) :
    ∃ cause, sink.Refuses cause ∧ e = .sink cause := by
  obtain ⟨-, herror⟩ := emit_spec (emittable_of_plan hplan ids ha) hs unit.key
    (settings.emissionScope sink given) rfl work.artifacts
  have hsame := congrArg Prod.fst (emit_noting plan unit.key (settings.emissionScope sink given)
    work.registry work.artifacts)
  refine (herror e (hsame.trans ?_)).1
  unfold compile at h
  rcases hp : unit.plan work.registry with ⟨notices, result⟩
  rw [hp] at hplan h
  obtain rfl : result = .ok plan := hplan
  dsimp only at h
  rcases hg : assignSlots settings.bindings.maxTextureUnits allocator plan.types work.slots with
    ⟨result, slots⟩
  rw [hg] at ha h
  obtain rfl : result = .ok given := ha
  exact h

/-- A call of `compile` either changes nothing and asks for nothing, or emits the plan of the unit. -/
theorem compile_course {settings : Settings} (allocator : SlotAllocator σ) (sink : ArtifactSink τ)
    {unit : SourceUnit} {work : Workspace σ τ} (ids : unit.FindsIds work.registry) :
    ((compile settings allocator sink.noting unit work.noting).2.registry = work.registry ∧
      (compile settings allocator sink.noting unit work.noting).2.artifacts =
        (work.artifacts, [])) ∨
    ∃ plan given, (unit.plan work.registry).result = .ok plan ∧
      plan.Emittable work.registry settings.bindings.maxTextureUnits ∧
      ((compile settings allocator sink.noting unit work.noting).1.result,
        (compile settings allocator sink.noting unit work.noting).2.registry,
        (compile settings allocator sink.noting unit work.noting).2.artifacts) =
        plan.emit unit.key (settings.emissionScope sink given).noting work.registry
          (work.artifacts, []) := by
  unfold compile
  rw [show work.noting.registry = work.registry from rfl]
  rcases hp : unit.plan work.registry with ⟨notices, e | plan⟩
  · exact Or.inl ⟨rfl, rfl⟩
  · dsimp only
    rcases ha : assignSlots settings.bindings.maxTextureUnits allocator plan.types
      work.noting.slots with ⟨e | given, slots⟩
    · exact Or.inl ⟨rfl, rfl⟩
    · have hplan : (unit.plan work.registry).result = .ok plan := by rw [hp]
      exact Or.inr ⟨plan, given, rfl, emittable_of_plan hplan ids (by rw [ha]), rfl⟩

theorem compile_spec {settings : Settings} (allocator : SlotAllocator σ) (sink : ArtifactSink τ)
    {unit : SourceUnit} {work : Workspace σ τ}
    (hs : work.registry.Settled settings.bindings.maxTextureUnits)
    (hf : unit.FindsIds work.registry) :
    (compile settings allocator sink.noting unit work.noting).2.registry.Settled
        settings.bindings.maxTextureUnits ∧
      ∀ e, (compile settings allocator sink.noting unit work.noting).1.result = .error e →
        (compile settings allocator sink.noting unit work.noting).2.registry = work.registry ∧
            (compile settings allocator sink.noting unit work.noting).2.artifacts =
              (work.artifacts, []) ∨
          (∃ cause, sink.Refuses cause ∧ e = .sink cause) ∧
            work.registry.FallsBack
              (compile settings allocator sink.noting unit work.noting).2.artifacts.2
              (compile settings allocator sink.noting unit work.noting).2.registry := by
  rcases @compile_course σ τ settings allocator sink unit work hf with
    ⟨hregistry, hartifacts⟩ | ⟨plan, given, -, hplan, hemit⟩
  · exact ⟨hregistry.symm ▸ hs, fun _ _ => Or.inl ⟨hregistry, hartifacts⟩⟩
  · obtain ⟨hresult, hrest⟩ := Prod.mk.inj hemit
    obtain ⟨hregistry, hartifacts⟩ := Prod.mk.inj hrest
    rw [hresult, hregistry, hartifacts]
    obtain ⟨hsettled, herror⟩ := emit_spec hplan hs unit.key (settings.emissionScope sink given) rfl
      work.artifacts
    exact ⟨hsettled, fun e he => Or.inr (herror e he)⟩

/-! ## All calls of a compiler -/

/-- The registries of a compiler: a fresh one, and those to which restored snapshots and calls of
`compile` lead, with any allocator, sink and unit, and whatever the result. -/
inductive Reached (settings : Settings) : Registry → Prop
  | fresh : Reached settings { suffixLength := settings.registry.suffixLength }
  | restore {registry : Registry} (kept : Snapshot) (h : Reached settings registry) :
      Reached settings (registry.restore kept)
  | compile {σ τ : Type} (allocator : SlotAllocator σ) (sink : ArtifactSink τ) (unit : SourceUnit)
      (work : Workspace σ τ) (h : Reached settings work.registry)
      (ids : unit.FindsIds work.registry) :
      Reached settings (UniformLayout.compile settings allocator sink unit work).2.registry

theorem Reached.settled {settings : Settings} {registry : Registry}
    (h : Reached settings registry) : registry.Settled settings.bindings.maxTextureUnits := by
  induction h with
  | fresh => exact settled_empty _ _
  | restore kept _ ih => exact settled_restore ih kept
  | compile allocator sink unit work _ ids ih =>
    obtain ⟨-, hregistry, -⟩ := compile_noting settings allocator sink unit work
    rw [← hregistry]
    exact (compile_spec allocator sink ih ids).1

/-- A call that fails and is not refused by the sink changes nothing and asks the sink for nothing.
A call that the sink refuses leaves nothing but the types that it has written. -/
theorem compile_of_error {settings : Settings} {allocator : SlotAllocator σ}
    {sink : ArtifactSink τ} {unit : SourceUnit} {work : Workspace σ τ}
    (h : Reached settings work.registry) (ids : unit.FindsIds work.registry) {e : CompileError}
    (he : (compile settings allocator sink unit work).1.result = .error e) :
    ((∀ cause, e ≠ .sink cause) →
      (compile settings allocator sink unit work).2.registry = work.registry ∧
        (compile settings allocator sink unit work).2.artifacts = work.artifacts ∧
        compileRequests settings allocator sink unit work = []) ∧
    ((∃ cause, e = .sink cause) →
      work.registry.FallsBack (compileRequests settings allocator sink unit work)
        (compile settings allocator sink unit work).2.registry) := by
  obtain ⟨hresult, hregistry, -, hartifacts⟩ := compile_noting settings allocator sink unit work
  have hspec := (compile_spec allocator sink h.settled ids).2 e (by rw [hresult, he])
  unfold compileRequests
  rw [← hregistry, ← hartifacts]
  constructor
  · intro hne
    rcases hspec with ⟨hsame, hnone⟩ | ⟨⟨cause, -, hsink⟩, -⟩
    · rw [hsame, hnone]
      exact ⟨rfl, rfl, rfl⟩
    · exact absurd hsink (hne cause)
  · intro _
    rcases hspec with ⟨hsame, -⟩ | ⟨-, hfalls⟩
    · rw [hsame]
      exact h.settled.fallsBack _
    · exact hfalls

/-- Every new hash gets the first id that is tried for it. -/
def Registry.findsFirstIds (registry : Registry) : List (TypeDeclaration × String) → Bool
  | [] => true
  | (decl, hash) :: rest =>
    ((registry.byHash.lookup hash).isSome ||
        (registry.byId.lookup (candidateId hash 0)).isNone) &&
      (registry.register decl hash).2.findsFirstIds rest

theorem findsIds_of_findsFirstIds {pairs : List (TypeDeclaration × String)}
    (h : registry.findsFirstIds pairs = true) : registry.FindsIds pairs := by
  induction pairs generalizing registry with
  | nil => trivial
  | cons pair rest ih =>
    obtain ⟨hfirst, hrest⟩ := Bool.and_eq_true_iff.1 h
    refine ⟨fun hnew => ⟨0, by decide, ?_⟩, ih hrest⟩
    rcases Bool.or_eq_true_iff.1 hfirst with hknown | hfree
    · rw [hnew] at hknown
      cases hknown
    · exact Option.isNone_iff_eq_none.1 hfree

/-- Every new hash of the unit's plan gets the first id that is tried for it. -/
def SourceUnit.findsFirstIds (unit : SourceUnit) (registry : Registry) : Bool :=
  (unit.plan registry).result.toOption.all fun plan =>
    registry.findsFirstIds (plan.types.map fun planned => (planned.declaration, planned.contentHash))

theorem findsIds_of_plan {unit : SourceUnit} {registry : Registry}
    (h : unit.findsFirstIds registry = true) : unit.FindsIds registry := by
  intro plan hp
  rw [SourceUnit.findsFirstIds, hp] at h
  exact findsIds_of_findsFirstIds h

theorem error_of_bind_ok {ε α β : Type} {x : Except ε α} {b : β} {e : ε}
    (h : (x >>= fun _ => .ok b) = .error e) : x = .error e := by
  cases x with
  | error other => exact congrArg _ (Except.error.inj h)
  | ok a => cases h

/-- A struct, and a block that uses it. -/
def lightsUnit : SourceUnit where
  key := "lights.frag"
  text := "struct Lamp \x7b float range; \x7d;\nuniform Lights \x7b Lamp lamps[2]; \x7d;"

/-- A fresh registry, and room for one source. -/
def narrowWork : Workspace BindingPool (Artifacts × Nat) where
  registry := { suffixLength := 4 }
  slots := { max := 72 }
  artifacts := ([], 1)

/-- The unit has a plan, each of its hashes gets the first id, and the sink refuses its block. -/
theorem lightsUnit_checked :
    (lightsUnit.plan narrowWork.registry).result.toOption.any (fun _ => true) = true ∧
      lightsUnit.findsFirstIds narrowWork.registry = true ∧
      ((compile {} BindingPool.allocator memorySink.limited lightsUnit narrowWork).1.result >>=
          fun _ => .ok ()) = .error (.sink (.refused "disk full while writing Lights")) := by
  decide +kernel

theorem lightsUnit_findsIds : lightsUnit.FindsIds narrowWork.registry :=
  findsIds_of_plan lightsUnit_checked.2.1

/-- The sink stores the struct and refuses the block. -/
theorem compile_of_error_narrow :
    (∃ e, (compile {} BindingPool.allocator memorySink.limited lightsUnit narrowWork).1.result =
        .error (.sink e)) ∧
      narrowWork.registry.FallsBack
        (compileRequests {} BindingPool.allocator memorySink.limited lightsUnit narrowWork)
        (compile {} BindingPool.allocator memorySink.limited lightsUnit narrowWork).2.registry := by
  have he := error_of_bind_ok lightsUnit_checked.2.2
  exact ⟨⟨_, he⟩, (compile_of_error Reached.fresh lightsUnit_findsIds he).2 ⟨_, rfl⟩⟩

end UniformLayout
