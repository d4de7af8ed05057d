import UniformLayout.Proofs.Artifact.Items
import UniformLayout.Proofs.Compilation.Written

/-!
# The structs that a compiler has written

What a sink has accepted for a generated type is the source of a schema that has the name of the type.
The registry keeps these names apart, but not the other names that the sources define: `Light` has a
struct `LightData`, and so has a type that is declared as `LightData`.

* `EmissionStep.sources`, `EmissionRun.sources`: what emission writes.
* `Ledger.Kept.exists_schema`: what has been written for a type.

Main statements: `Ledger.Kept.structs_named_apart` and `light_defined_twice`.
-/

namespace UniformLayout

variable {σ τ : Type}

/-- The request is for the source of a schema, under the name of the schema. -/
def WriteRequest.IsSource (runtime : String) (request : WriteRequest) : Prop :=
  ∃ schema : TypeSchema, request = ⟨schema.name, schema.hostSource runtime, true⟩

/-- What has been accepted are sources. -/
def AllSources (runtime : String) (requests : List WriteRequest) : Prop :=
  ∀ request ∈ requests, request.accepted = true → request.IsSource runtime

theorem AllSources.append {runtime : String} {requests more : List WriteRequest}
    (h : AllSources runtime requests) (k : AllSources runtime more) :
    AllSources runtime (requests ++ more) :=
  List.forall_mem_append.2 ⟨h, k⟩

/-! ## Emission -/

section

variable {inner : ArtifactSink τ} {runtime : String} {limit : Nat}

/-- The schemas of the table have the identities of their hashes. -/
def SchemaTable.Named (registry : Registry) (kept : SchemaTable) : Prop :=
  kept.All fun hash schema => registry.identityOfHash? hash = some schema.identity

theorem named_step (registry : Registry) (limit : Nat) :
    SchemaScope.Step ⟨registry, limit⟩ (fun _ => True)
      fun hash schema => registry.identityOfHash? hash = some schema.identity :=
  fun _ _ _ _ _ hi _ _ => hi

/-- What holds between the types of a unit. -/
structure EmissionState.Sources (runtime : String)
    (state : EmissionState (τ × List WriteRequest)) : Prop where
  requests : AllSources runtime state.artifacts.2
  named : state.schemas.Named state.registry

theorem EmissionStep.sources {planned : PlannedType} {state : EmissionState (τ × List WriteRequest)}
    {result : Except CompileError EmittedType × EmissionState (τ × List WriteRequest)}
    (hs : state.registry.Settled limit) (h : state.Sources runtime)
    (step : EmissionStep inner runtime limit planned state result) :
    AllSources runtime result.2.artifacts.2 ∧
      ((∃ emitted, result.1 = .ok emitted) → result.2.schemas.Named result.2.registry) := by
  have hstep := named_step state.registry limit
  cases step with
  | passed emitted made offered =>
    exact ⟨h.requests, fun _ =>
      (toSchema_induction hstep (offered.mono fun _ _ => trivial) h.named made).2⟩
  | @written schema schemas index record emitted artifacts generated made new stands pending hash units
      nested =>
    have hany : planned.layout.Throughout fun _ => True :=
      .intro trivial fun field hm below hb => (nested field hm below hb).mono fun _ _ => trivial
    obtain ⟨hschema, hnamed⟩ := toSchema_induction hstep hany h.named made
    have hidentity : schema.identity = record.identity := by
      have hfound := hs.wellFormed.consistent.ofHash_of_getElem? stands
      rw [← hash] at hfound
      rw [Registry.identityOfHash?, hfound] at hschema
      exact (Option.some.inj hschema).symm
    have hgrows := (Registry.advances_setGenerated stands pending hash
      (List.mem_singleton_self (⟨_, "", true⟩ : WriteRequest))).growsTo
    refine ⟨h.requests.append ?_, fun _ other kept hl => ?_⟩
    · rw [← hidentity]
      simp only [AllSources, List.mem_singleton, forall_eq]
      exact fun _ => ⟨schema, rfl⟩
    · exact (hgrows.identities other).trans (hnamed other kept hl)
  | refused schemas artifacts key text refuses =>
    refine ⟨h.requests.append ?_, fun hok => ?_⟩
    · simp [AllSources]
    · obtain ⟨emitted, he⟩ := hok
      cases he

/-- All types of a unit. The induction carries what holds between them. -/
theorem EmissionRun.sources {types : List PlannedType} {state : EmissionState (τ × List WriteRequest)}
    {result : Except CompileError (List EmittedType) × EmissionState (τ × List WriteRequest)}
    (run : EmissionRun inner runtime limit types state result) (h : state.Sources runtime) :
    AllSources runtime result.2.artifacts.2 := by
  induction run with
  | done state => exact h.requests
  | stopped settled step => exact (step.sources settled h).1
  | went settled step run ih =>
    obtain ⟨hrequests, hnamed⟩ := step.sources settled h
    exact ih ⟨hrequests, hnamed ⟨_, rfl⟩⟩

end

/-- Emitting a plan writes sources, also when the registrations are rolled back. -/
theorem allSources_emit {plan : Plan} {registry : Registry} {limit : Nat}
    (hplan : plan.Emittable registry limit) (hs : registry.Settled limit) (key : String)
    (scope : EmissionScope τ) (hlimit : scope.maxTextureUnits = limit) (artifacts : τ) :
    AllSources scope.runtime (plan.emit key scope.noting registry (artifacts, [])).2.2.2 := by
  obtain ⟨-, -, hrun⟩ := hplan.run hs scope hlimit artifacts rfl
  unfold Plan.emit
  generalize registry.registerAll
    (plan.types.map fun planned => (planned.declaration, planned.contentHash)) = registered at *
  obtain ⟨registrations, after⟩ := registered
  dsimp only at *
  have hsources := hrun.sources ⟨List.forall_mem_nil _, fun hash schema hl => by cases hl⟩
  generalize emitAll scope.noting plan.types { registry := after, artifacts := (artifacts, []) } =
    emitted at *
  obtain ⟨e | types, state⟩ := emitted
  · exact hsources
  · exact hsources

/-- What a call of `compile` writes are sources. -/
theorem allSources_compileRequests {settings : Settings} (allocator : SlotAllocator σ)
    (sink : ArtifactSink τ) {unit : SourceUnit} {work : Workspace σ τ}
    (hs : work.registry.Settled settings.bindings.maxTextureUnits)
    (ids : unit.FindsIds work.registry) :
    AllSources settings.output.runtime (compileRequests settings allocator sink unit work) := by
  unfold compileRequests
  rcases @compile_course σ τ settings allocator sink unit work ids with
    ⟨-, hartifacts⟩ | ⟨plan, given, hok, hplan, hemit⟩
  · rw [hartifacts]
    exact List.forall_mem_nil _
  · obtain ⟨-, hrest⟩ := Prod.mk.inj hemit
    obtain ⟨-, hartifacts⟩ := Prod.mk.inj hrest
    rw [hartifacts]
    exact allSources_emit hplan hs unit.key (settings.emissionScope sink given) rfl work.artifacts

/-! ## Histories -/

namespace Ledger

variable {settings : Settings} {sink : ArtifactSink τ} {ledger : Ledger τ}

theorem Kept.allSources (h : ledger.Kept settings sink) :
    AllSources settings.output.runtime ledger.requests := by
  induction h with
  | start artifacts => exact List.forall_mem_nil _
  | restore kept _ ih => exact ih
  | @compile σ ledger allocator unit slots h ids ih =>
    exact ih.append (@allSources_compileRequests σ τ settings allocator sink unit
      (ledger.workspace slots) h.reached.settled ids)

/-- The source of the schema is what the sink has accepted for the type. -/
structure HoldsFor (settings : Settings) (ledger : Ledger τ) (record : Record) (schema : TypeSchema) :
    Prop where
  name : schema.name = record.identity.generatedName
  text : acceptedTexts ledger.requests schema.name = [schema.hostSource settings.output.runtime]

/-- For each generated type the sink has accepted the source of one schema, which has the name of the
type. -/
theorem Kept.exists_schema (h : ledger.Kept settings sink) {record : Record}
    (hm : record ∈ ledger.registry.records) (hg : record.state = .generated) :
    ∃ schema, ledger.HoldsFor settings record schema := by
  obtain ⟨i, hr⟩ := List.mem_iff_getElem?.1 hm
  have hbegun : (record.identity, record.state, record.descriptor) ∈ ledger.registry.begun :=
    Registry.mem_begun_iff.2 ⟨i, record, hr, rfl, fun hp => by rw [hg] at hp; cases hp⟩
  obtain ⟨layout, text, -, -, htext, -⟩ := h.accounts.stored _ _ _ hbegun
  have htaken : text ∈ acceptedTexts ledger.requests record.identity.generatedName := by
    rw [htext]
    exact List.mem_singleton_self text
  obtain ⟨request, hrequest, hgiven⟩ := List.mem_filterMap.1 htaken
  split at hgiven
  · rename_i hmatches
    obtain ⟨haccepted, hkey⟩ := Bool.and_eq_true_iff.1 hmatches
    obtain ⟨schema, rfl⟩ := h.allSources request hrequest haccepted
    obtain rfl := Option.some.inj hgiven
    have hname : schema.name = record.identity.generatedName := eq_of_beq hkey
    exact ⟨schema, hname, hname ▸ htext⟩
  · cases hgiven

/-- The records of the generated types. -/
def generated (ledger : Ledger τ) : List Record :=
  ledger.registry.records.filter (·.state == .generated)

/-- The schemas of what the sink has accepted for the generated types. -/
def Holds (settings : Settings) (ledger : Ledger τ) (schemas : List TypeSchema) : Prop :=
  List.Forall₂ (ledger.HoldsFor settings) ledger.generated schemas

theorem Holds.names {schemas : List TypeSchema} (h : ledger.Holds settings schemas) :
    schemas.map TypeSchema.name = ledger.generated.map (·.identity.generatedName) :=
  map_eq_of_forall₂ h fun _ _ _ hs => hs.name

theorem Kept.exists_holds (h : ledger.Kept settings sink) :
    ∃ schemas, ledger.Holds settings schemas := by
  refine exists_forall₂ fun record hm => ?_
  obtain ⟨hm, hg⟩ := List.mem_filter.1 hm
  exact h.exists_schema hm (eq_of_beq hg)

theorem Kept.nodup_generated (h : ledger.Kept settings sink) :
    (ledger.generated.map (·.identity.generatedName)).Nodup :=
  (List.filter_sublist.map _).nodup h.reached.settled.wellFormed.consistent.byGeneratedName.nodup

/-- **Structs.** For each generated type the sink has accepted the source of a schema. The structs that
these sources define have names of their own if and only if no two of the sources are in conflict. They
have if no type has a name that goes on from the name of another one with a letter or a digit. -/
theorem Kept.structs_named_apart (h : ledger.Kept settings sink) :
    (∃ schemas, ledger.Holds settings schemas) ∧
      ∀ schemas, ledger.Holds settings schemas →
        (∀ schema ∈ schemas,
          Code.structNames (schema.hostCode settings.output.runtime) = schema.items) ∧
        ((schemas.flatMap TypeSchema.items).Nodup ↔ schemas.Pairwise TypeSchema.Apart) ∧
        ((ledger.generated.map (·.identity.generatedName)).Pairwise (fun name other =>
            ¬ Extends name other ∧ ¬ Extends other name) →
          (schemas.flatMap TypeSchema.items).Nodup) := by
  refine ⟨h.exists_holds, fun schemas hs => ?_⟩
  have hnodup : (schemas.map TypeSchema.name).Nodup := hs.names ▸ h.nodup_generated
  have hiff := nodup_items_iff hnodup
  refine ⟨fun schema _ => schema.structNames_hostCode _, hiff, fun hextends => hiff.2 ?_⟩
  rw [← hs.names] at hextends
  exact ((List.pairwise_map.1 hnodup).and (List.pairwise_map.1 hextends)).imp
    fun ⟨hne, hnot, hnot'⟩ => .of_extends hne hnot hnot'

end Ledger

/-! ## A porch with lamps -/

def porchUnit : SourceUnit where
  key := "porch.glsl"
  text := "struct Lamp\x7bvec3 color;\x7d;struct Porch\x7bfloat levels[3];Lamp lamps[2];\x7d;"

def porchLedger : Ledger Artifacts :=
  (Ledger.start {} []).compile {} BindingPool.allocator memorySink porchUnit { max := 72 }

theorem structs_named_apart_porch :
    porchLedger.Kept {} memorySink ∧
      porchLedger.generated.map (·.identity.generatedName) = ["Lamp", "Porch"] ∧
      ∃ schemas, porchLedger.Holds {} schemas ∧ (schemas.flatMap TypeSchema.items).Nodup := by
  obtain ⟨hids, hnames⟩ : porchUnit.findsFirstIds ((Ledger.start {} ([] : Artifacts)).workspace
        ({ max := 72 } : BindingPool)).registry = true ∧
      porchLedger.generated.map (·.identity.generatedName) = ["Lamp", "Porch"] := by
    decide +kernel
  have hkept : porchLedger.Kept {} memorySink :=
    .compile BindingPool.allocator porchUnit { max := 72 } (.start []) (findsIds_of_plan hids)
  obtain ⟨⟨schemas, hs⟩, hall⟩ := hkept.structs_named_apart
  obtain ⟨-, -, hnodup⟩ := hall schemas hs
  refine ⟨hkept, hnames, schemas, hs, hnodup ?_⟩
  rw [hnames]
  decide

/-! ## A name that is defined twice -/

/-- A type that is named like the plain-data struct of another one. -/
def lightUnit : SourceUnit where
  key := "light.glsl"
  text := "struct Light\x7bvec4 color;\x7d;struct LightData\x7bvec4 color;float power;\x7d;"

def lightLedger : Ledger Artifacts :=
  (Ledger.start {} []).compile {} BindingPool.allocator memorySink lightUnit { max := 72 }

/-- `LightData` is the plain-data struct of `Light`, and the wrapper of the other type. -/
theorem light_defined_twice :
    lightLedger.Kept {} memorySink ∧
      lightLedger.generated.map (·.identity.generatedName) = ["Light", "LightData"] ∧
      ∃ schemas, lightLedger.Holds {} schemas ∧
        (∀ schema ∈ schemas, "LightData" ∈ Code.structNames (schema.hostCode
          ({} : Settings).output.runtime)) ∧
        ¬ (schemas.flatMap TypeSchema.items).Nodup := by
  obtain ⟨hids, hnames⟩ : lightUnit.findsFirstIds ((Ledger.start {} ([] : Artifacts)).workspace
        ({ max := 72 } : BindingPool)).registry = true ∧
      lightLedger.generated.map (·.identity.generatedName) = ["Light", "LightData"] := by
    decide +kernel
  have hkept : lightLedger.Kept {} memorySink :=
    .compile BindingPool.allocator lightUnit { max := 72 } (.start []) (findsIds_of_plan hids)
  obtain ⟨schemas, hs⟩ := hkept.exists_holds
  obtain ⟨light, rest, rfl, hlight, hrest⟩ := List.map_eq_cons_iff.1 (hs.names.trans hnames)
  obtain ⟨other, rest, rfl, hother, hnil⟩ := List.map_eq_cons_iff.1 hrest
  obtain rfl := List.map_eq_nil_iff.1 hnil
  have hfirst : "LightData" ∈ light.items :=
    TypeSchema.mem_items.2 (.inr (.inl (hlight ▸ by decide)))
  have hsecond : "LightData" ∈ other.items := TypeSchema.mem_items.2 (.inr (.inr hother.symm))
  refine ⟨hkept, hnames, _, hs, ?_, fun hnodup => ?_⟩
  · simp only [List.forall_mem_cons, TypeSchema.structNames_hostCode]
    exact ⟨hfirst, hsecond, List.forall_mem_nil _⟩
  · rw [List.flatMap_cons, List.flatMap_cons, List.nodup_append] at hnodup
    exact hnodup.2.2 _ hfirst _ (List.mem_append_left _ hsecond) rfl

end UniformLayout
