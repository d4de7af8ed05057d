import UniformLayout.Proofs.Artifact.Rebuilt
import UniformLayout.Proofs.Compilation.Failure

/-!
# Accounts of what has been written

The sources that a sink has accepted are accounted for by the registry: they are those of the types
that have been begun, one for each of them, and each can be made again from the layout that the
registry holds (`Registry.Accounts`). The accounts stay right when types are written, when a write is
refused, and when registrations are rolled back.

* `Registry.Accounts.write`: a pending type is written.
* `EmissionStep.accounts`, `EmissionRun.accounts`: one type of a unit, and all of them. The schemas
  that the builder keeps on the way belong to types that have been begun (`SchemaTable.Backed`).

Main statement: `compile_accounts`.
-/

namespace UniformLayout

/-! ## Accepted sources -/

/-- The texts that a sink has accepted under a name, in order. -/
def acceptedTexts (requests : List WriteRequest) (name : String) : List String :=
  requests.filterMap fun request =>
    if request.accepted && request.key == name then some request.text else none

theorem acceptedTexts_concat_of_ne {requests : List WriteRequest} {request : WriteRequest}
    {name : String} (h : request.accepted = true → request.key ≠ name) :
    acceptedTexts (requests ++ [request]) name = acceptedTexts requests name := by
  have hnot : ¬ (request.accepted && request.key == name) = true := by
    rw [Bool.and_eq_true, beq_iff_eq]
    exact fun ⟨ha, hk⟩ => h ha hk
  rw [acceptedTexts, List.filterMap_append, List.filterMap_cons, if_neg hnot]
  exact List.append_nil _

theorem acceptedTexts_eq_nil {requests : List WriteRequest} {name : String}
    (h : ∀ request ∈ requests, request.accepted = true → request.key ≠ name) :
    acceptedTexts requests name = [] := by
  rw [acceptedTexts, List.filterMap_eq_nil_iff]
  intro request hm
  rw [if_neg]
  rw [Bool.and_eq_true, beq_iff_eq]
  exact fun ⟨ha, hk⟩ => h request hm ha hk

theorem acceptedTexts_concat_self (requests : List WriteRequest) (name text : String) :
    acceptedTexts (requests ++ [⟨name, text, true⟩]) name = acceptedTexts requests name ++ [text] := by
  rw [acceptedTexts, List.filterMap_append, List.filterMap_cons,
    if_pos (by rw [Bool.true_and, beq_self_eq_true])]
  rfl

namespace Registry

variable {registry grown : Registry} {limit : Nat} {runtime : String} {layouts : List StructLayout}
  {requests : List WriteRequest}

/-- The accepted sources and the types that have been begun belong together. Sources are known to be
made again only where content hashes determine the bulk of the given layouts. -/
structure Accounts (limit : Nat) (runtime : String) (layouts : List StructLayout)
    (requests : List WriteRequest) (registry : Registry) : Prop where
  stored : ∀ identity state descriptor?, (identity, state, descriptor?) ∈ registry.begun →
    ∃ layout text, descriptor? = some ⟨identity, layout⟩ ∧ layout ∈ layouts ∧
      acceptedTexts requests identity.generatedName = [text] ∧
      ∀ known, (∀ other ∈ layouts, other.DeterminedBy StructLayout.bulk known) →
        registry.FixesSource limit runtime layout text
  owned : ∀ request ∈ requests, request.accepted = true →
    ∃ identity state descriptor?, (identity, state, descriptor?) ∈ registry.begun ∧
      identity.generatedName = request.key

theorem Accounts.of_begun (h : registry.Accounts limit runtime layouts requests)
    (hb : grown.begun = registry.begun) : grown.Accounts limit runtime layouts requests := by
  refine ⟨fun identity state descriptor? hm => ?_, ?_⟩
  · rw [hb] at hm
    obtain ⟨layout, text, hd, hl, ht, hfix⟩ := h.stored identity state descriptor? hm
    exact ⟨layout, text, hd, hl, ht, fun known hk => (hfix known hk).mono fun _ hm => hb ▸ hm⟩
  · rw [hb]
    exact h.owned

theorem Accounts.mono {more : List StructLayout}
    (h : registry.Accounts limit runtime layouts requests) (hm : layouts ⊆ more) :
    registry.Accounts limit runtime more requests := by
  refine ⟨fun identity state descriptor? hentry => ?_, h.owned⟩
  obtain ⟨layout, text, hd, hl, ht, hfix⟩ := h.stored identity state descriptor? hentry
  exact ⟨layout, text, hd, hm hl, ht, fun known hk => hfix known fun other ho => hk other (hm ho)⟩

theorem Accounts.refuse (h : registry.Accounts limit runtime layouts requests) (key text : String) :
    registry.Accounts limit runtime layouts (requests ++ [⟨key, text, false⟩]) := by
  refine ⟨fun identity state descriptor? hm => ?_, fun request hr ha => ?_⟩
  · rw [acceptedTexts_concat_of_ne fun ha => by cases ha]
    exact h.stored identity state descriptor? hm
  · rcases List.mem_append.1 hr with hr | hr
    · exact h.owned request hr ha
    · obtain rfl := List.mem_singleton.1 hr
      cases ha

/-! ## Writing a pending type -/

section

variable {index : Nat} {record : Record} (hr : registry.records[index]? = some record)
  (hp : record.state = .pending)
include hr hp

/-- A pending type has neither the name nor the hash of a type that has been begun. -/
theorem ne_of_pending (hc : registry.Consistent) {identity : TypeIdentity} {state : GenerationState}
    {descriptor? : Option LayoutDescriptor}
    (hm : (identity, state, descriptor?) ∈ registry.begun) :
    identity.generatedName ≠ record.identity.generatedName ∧
      identity.contentHash ≠ record.identity.contentHash := by
  obtain ⟨i, other, ho, hcore, hs⟩ := mem_begun_iff.1 hm
  obtain rfl : other.identity = identity := congrArg Prod.fst hcore
  have hne : i ≠ index := by
    rintro rfl
    obtain rfl := Option.some.inj (ho.symm.trans hr)
    exact hs hp
  have hkey : ∀ key : Record → String, (registry.records.map key).Nodup →
      key other ≠ key record := by
    intro key hnodup he
    have hi : (registry.records.map key)[i]? = some (key other) := by rw [List.getElem?_map, ho]; rfl
    have hj : (registry.records.map key)[index]? = some (key other) := by
      rw [List.getElem?_map, hr, he]
      rfl
    exact hne ((List.getElem?_inj (List.getElem?_eq_some_iff.1 hi).1 hnodup).1 (hi.trans hj.symm))
  exact ⟨hkey (·.identity.generatedName) hc.byGeneratedName.nodup,
    hkey (·.identity.contentHash) hc.byHash.nodup⟩

variable {layout : StructLayout}

theorem mem_begun_setGenerated {identity : TypeIdentity} {state : GenerationState}
    {descriptor? : Option LayoutDescriptor} :
    (identity, state, descriptor?) ∈
        (registry.setRecord index (generatedWith ⟨record.identity, layout⟩)).begun ↔
      (identity, state, descriptor?) ∈ registry.begun ∨
        (identity, state, descriptor?) =
          (record.identity, .generated, some ⟨record.identity, layout⟩) := by
  simp only [mem_begun_iff, getElem?_setRecord]
  constructor
  · rintro ⟨i, later, hl, hcore, hs⟩
    split at hl
    · rename_i he
      subst he
      rw [hr] at hl
      obtain rfl := Option.some.inj hl
      exact Or.inr hcore.symm
    · exact Or.inl ⟨i, later, hl, hcore, hs⟩
  · rintro (⟨i, later, hl, hcore, hs⟩ | he)
    · refine ⟨i, later, ?_, hcore, hs⟩
      rw [if_neg]
      · exact hl
      · rintro rfl
        obtain rfl := Option.some.inj (hl.symm.trans hr)
        exact hs hp
    · refine ⟨index, generatedWith ⟨record.identity, layout⟩ record, ?_, he.symm, fun hs => by cases hs⟩
      rw [if_pos rfl, hr]
      rfl

/-- A pending type is written, and its source can be made again. -/
theorem Accounts.write (h : registry.Accounts limit runtime layouts requests)
    (hc : registry.Consistent) (hl : layout ∈ layouts) {text : String}
    (hfix : ∀ known, (∀ other ∈ layouts, other.DeterminedBy StructLayout.bulk known) →
      (registry.setRecord index (generatedWith ⟨record.identity, layout⟩)).FixesSource limit runtime
        layout text) :
    (registry.setRecord index (generatedWith ⟨record.identity, layout⟩)).Accounts limit runtime layouts
      (requests ++ [⟨record.identity.generatedName, text, true⟩]) := by
  have hbegun : registry.begun ⊆
      (registry.setRecord index (generatedWith ⟨record.identity, layout⟩)).begun := by
    rintro ⟨identity, state, descriptor?⟩ hm
    exact (mem_begun_setGenerated hr hp).2 (Or.inl hm)
  refine ⟨fun identity state descriptor? hm => ?_, fun request hrequest ha => ?_⟩
  · rcases (mem_begun_setGenerated hr hp).1 hm with hm | he
    · obtain ⟨other, stored, hd, ho, ht, hother⟩ := h.stored identity state descriptor? hm
      refine ⟨other, stored, hd, ho, ?_, fun known hk => (hother known hk).mono hbegun⟩
      rw [acceptedTexts_concat_of_ne fun _ => (ne_of_pending hr hp hc hm).1.symm]
      exact ht
    · obtain ⟨rfl, hrest⟩ := Prod.mk.inj he
      obtain ⟨-, rfl⟩ := Prod.mk.inj hrest
      refine ⟨layout, text, rfl, hl, ?_, hfix⟩
      -- So far nothing has been accepted under the name, since no type that has been begun has it.
      rw [acceptedTexts_concat_self, acceptedTexts_eq_nil]
      · rfl
      · intro request hrequest ha he
        obtain ⟨identity, state, descriptor?, hm, hn⟩ := h.owned request hrequest ha
        exact (ne_of_pending hr hp hc hm).1 (hn.trans he)
  · rcases List.mem_append.1 hrequest with hrequest | hrequest
    · obtain ⟨identity, state, descriptor?, hm, hn⟩ := h.owned request hrequest ha
      exact ⟨identity, state, descriptor?, hbegun hm, hn⟩
    · obtain rfl := List.mem_singleton.1 hrequest
      exact ⟨_, _, _, (mem_begun_setGenerated hr hp).2 (Or.inr rfl), rfl⟩

end

/-- The host type of the hash has been begun. -/
def HasBegun (registry : Registry) (hash : String) : Prop :=
  ∃ identity state descriptor?, (identity, state, descriptor?) ∈ registry.begun ∧
    identity.contentHash = hash

theorem Offers.hasBegun {layout : StructLayout} (h : registry.Offers limit layout) :
    registry.HasBegun layout.contentHash := by
  obtain ⟨⟨identity, descriptor?, hm, he⟩, -⟩ := h
  exact ⟨identity, .generated, descriptor?, hm, he⟩

/-- The registry has grown: types have been begun, and no identity has changed. -/
structure GrowsTo (registry grown : Registry) : Prop where
  begun : registry.begun ⊆ grown.begun
  identities : ∀ hash, grown.identityOfHash? hash = registry.identityOfHash? hash

theorem GrowsTo.refl (registry : Registry) : registry.GrowsTo registry :=
  ⟨List.Subset.refl _, fun _ => rfl⟩

/-- Writing types leaves every identity in its place. -/
theorem Advances.identity_at (h : Advances requests registry grown) (i : Nat) :
    (grown.records[i]?).map Record.identity = (registry.records[i]?).map Record.identity := by
  cases hr : registry.records[i]? with
  | none => rw [List.getElem?_eq_none (h.length ▸ List.getElem?_eq_none_iff.1 hr)]
  | some record =>
    obtain ⟨later, hl, rfl | ⟨-, hi, -⟩⟩ := h.each i record hr
    · rw [hl]
    · rw [hl]
      exact congrArg some hi

theorem Advances.growsTo (h : Advances requests registry grown) : registry.GrowsTo grown := by
  refine ⟨h.begun, fun hash => ?_⟩
  unfold identityOfHash? ofHash? recordAt?
  rw [show grown.byHash = registry.byHash by rw [h.indices]]
  cases registry.byHash.lookup hash with
  | none => rfl
  | some index => exact h.identity_at index

end Registry

/-! ## The schemas that a builder keeps -/

/-- Every kept schema belongs to a type that has been begun, and shows what its hash says. -/
structure SchemaTable.Backed (registry : Registry) (layouts : List StructLayout)
    (kept : SchemaTable) : Prop where
  begun : kept.All fun hash _ => registry.HasBegun hash
  stubs : ∀ known, (∀ other ∈ layouts, other.DeterminedBy StructLayout.bulk known) →
    kept.All fun hash schema => schema.stub = registry.stub known hash

theorem SchemaTable.backed_nil (registry : Registry) (layouts : List StructLayout) :
    SchemaTable.Backed registry layouts [] := by
  constructor
  · intro hash schema hl
    cases hl
  · intro known _ hash schema hl
    cases hl

/-- The schemas stay backed when that of a layout has been built, once the layout is on offer. -/
theorem SchemaTable.Backed.toSchema {registry grown : Registry} {limit : Nat}
    {layouts : List StructLayout} {kept after : SchemaTable} {layout : StructLayout}
    {schema : TypeSchema} (h : kept.Backed registry layouts) (hg : registry.GrowsTo grown)
    (hl : layout ∈ layouts) (hoffer : layout.Throughout (grown.Offers limit))
    (made : layout.toSchema ⟨registry, limit⟩ kept = .ok (schema, after)) :
    after.Backed grown layouts := by
  constructor
  · have step : SchemaScope.Step ⟨registry, limit⟩
        (fun inner => grown.HasBegun inner.contentHash) (fun hash _ => grown.HasBegun hash) :=
      fun _ _ _ _ hbegun _ _ _ => hbegun
    refine (toSchema_induction step (hoffer.mono fun _ ho => ho.hasBegun) ?_ made).2
    intro hash found hm
    obtain ⟨identity, state, descriptor?, hentry, he⟩ := h.begun hash found hm
    exact ⟨identity, state, descriptor?, hg.begun hentry, he⟩
  · intro known hk
    have hstub : grown.stub known = registry.stub known := by
      funext hash
      rw [Registry.stub, Registry.stub, hg.identities]
    have hmatches : layout.Matches registry known (registry.stub known) :=
      (hk layout hl).mono fun _ hbulk => ⟨hbulk, rfl⟩
    rw [hstub]
    exact (toSchema_induction (stub_step registry limit known _) hmatches.throughout
      (h.stubs known hk) made).2

/-! ## Emission -/

section

variable {τ : Type} {inner : ArtifactSink τ} {limit : Nat} {runtime : String}
  {layouts : List StructLayout} {earlier : List WriteRequest}

open Registry

/-- What holds between the types of a unit. -/
structure EmissionState.Accounted (limit : Nat) (runtime : String) (layouts : List StructLayout)
    (earlier : List WriteRequest) (state : EmissionState (τ × List WriteRequest)) : Prop where
  accounts : state.registry.Accounts limit runtime layouts (earlier ++ state.artifacts.2)
  backed : state.schemas.Backed state.registry layouts

theorem EmissionStep.accounts {planned : PlannedType}
    {state : EmissionState (τ × List WriteRequest)}
    {result : Except CompileError EmittedType × EmissionState (τ × List WriteRequest)}
    (hs : state.registry.Settled limit) (h : state.Accounted limit runtime layouts earlier)
    (hl : planned.layout ∈ layouts) (step : EmissionStep inner runtime limit planned state result) :
    result.2.registry.Accounts limit runtime layouts (earlier ++ result.2.artifacts.2) ∧
      ((∃ emitted, result.1 = .ok emitted) →
        result.2.schemas.Backed result.2.registry layouts) := by
  have hc := hs.wellFormed.consistent
  cases step with
  | passed emitted made offered =>
    exact ⟨h.accounts, fun _ => h.backed.toSchema (.refl _) hl offered made⟩
  | @written schema schemas index record emitted artifacts generated made _ stands pending hash units
      nested =>
    obtain ⟨hsettled, hoffer⟩ := settled_setGenerated hs stands pending hash units nested rfl
    have hgrows := (advances_setGenerated stands pending hash
      (List.mem_singleton_self (⟨_, "", true⟩ : WriteRequest))).growsTo
    have hnew : state.schemas.lookup planned.layout.contentHash = none := by
      cases hk : state.schemas.lookup planned.layout.contentHash with
      | none => rfl
      | some kept =>
        obtain ⟨identity, generation, descriptor?, hm, he⟩ := h.backed.begun _ _ hk
        exact absurd (he.trans hash) (ne_of_pending stands pending hc hm).2
    refine ⟨?_, fun _ => h.backed.toSchema hgrows hl hoffer made⟩
    dsimp only
    rw [← List.append_assoc]
    refine h.accounts.write stands pending hc hl fun known hk => ?_
    exact fixesSource_of_toSchema hsettled.wellFormed.consistent hgrows.identities hoffer hnew
      (h.backed.stubs known hk) (hk _ hl) made runtime
  | refused schemas artifacts key text refuses =>
    dsimp only
    rw [← List.append_assoc]
    exact ⟨h.accounts.refuse key text, fun ⟨emitted, he⟩ => by cases he⟩

/-- All types of a unit. The induction carries what holds between them. -/
theorem EmissionRun.accounts {types : List PlannedType}
    {state : EmissionState (τ × List WriteRequest)}
    {result : Except CompileError (List EmittedType) × EmissionState (τ × List WriteRequest)}
    (run : EmissionRun inner runtime limit types state result)
    (h : state.Accounted limit runtime layouts earlier)
    (hl : ∀ planned ∈ types, planned.layout ∈ layouts) :
    result.2.registry.Accounts limit runtime layouts (earlier ++ result.2.artifacts.2) := by
  induction run with
  | done state => exact h.accounts
  | stopped settled step => exact (step.accounts settled h (hl _ List.mem_cons_self)).1
  | went settled step run ih =>
    obtain ⟨hfirst, hrest⟩ := List.forall_mem_cons.1 hl
    obtain ⟨haccounts, hbacked⟩ := step.accounts settled h hfirst
    exact ih ⟨haccounts, hbacked ⟨_, rfl⟩⟩ hrest

end

/-! ## Compiling -/

/-- The layouts of the types in a unit's plan. -/
def SourceUnit.plannedLayouts (unit : SourceUnit) (registry : Registry) : List StructLayout :=
  (unit.plan registry).result.toOption.elim [] fun plan => plan.types.map PlannedType.layout

theorem SourceUnit.plannedLayouts_eq {unit : SourceUnit} {registry : Registry} {plan : Plan}
    (h : (unit.plan registry).result = .ok plan) :
    unit.plannedLayouts registry = plan.types.map PlannedType.layout := by
  rw [plannedLayouts, h]
  rfl

section

variable {σ τ : Type} {layouts : List StructLayout} {earlier : List WriteRequest}

/-- Emitting a plan keeps the accounts, also when the registrations are rolled back. -/
theorem emit_accounts {plan : Plan} {registry : Registry} {limit : Nat}
    (hplan : plan.Emittable registry limit) (hs : registry.Settled limit) (key : String)
    (scope : EmissionScope τ) (hlimit : scope.maxTextureUnits = limit) (artifacts : τ)
    (h : registry.Accounts limit scope.runtime layouts earlier)
    (hl : ∀ planned ∈ plan.types, planned.layout ∈ layouts) :
    (plan.emit key scope.noting registry (artifacts, [])).2.1.Accounts limit scope.runtime layouts
      (earlier ++ (plan.emit key scope.noting registry (artifacts, [])).2.2.2) := by
  obtain ⟨-, hbegun, hrun⟩ := hplan.run hs scope hlimit artifacts rfl
  unfold Plan.emit
  generalize registry.registerAll
    (plan.types.map fun planned => (planned.declaration, planned.contentHash)) = registered at *
  obtain ⟨registrations, after⟩ := registered
  dsimp only at *
  have haccounts := hrun.accounts
    ⟨(List.append_nil earlier).symm ▸ h.of_begun hbegun, SchemaTable.backed_nil _ _⟩ hl
  generalize emitAll scope.noting plan.types { registry := after, artifacts := (artifacts, []) } =
    emitted at *
  obtain ⟨e | types, state⟩ := emitted
  · exact haccounts.of_begun (Registry.begun_rollBack _ registrations)
  · exact haccounts

/-- A call of `compile` keeps the accounts, whatever its result. -/
theorem compile_accounts {settings : Settings} (allocator : SlotAllocator σ) (sink : ArtifactSink τ)
    {unit : SourceUnit} {work : Workspace σ τ}
    (hs : work.registry.Settled settings.bindings.maxTextureUnits)
    (ids : unit.FindsIds work.registry)
    (h : work.registry.Accounts settings.bindings.maxTextureUnits settings.output.runtime layouts
      earlier) :
    (compile settings allocator sink unit work).2.registry.Accounts
      settings.bindings.maxTextureUnits settings.output.runtime
      (layouts ++ unit.plannedLayouts work.registry)
      (earlier ++ compileRequests settings allocator sink unit work) := by
  obtain ⟨-, hnoting, -⟩ := compile_noting settings allocator sink unit work
  rw [← hnoting, compileRequests]
  have hmore := h.mono (List.subset_append_left layouts (unit.plannedLayouts work.registry))
  rcases @compile_course σ τ settings allocator sink unit work ids with
    ⟨hregistry, hartifacts⟩ | ⟨plan, given, hok, hplan, hemit⟩
  · rw [hregistry, hartifacts, List.append_nil]
    exact hmore
  · obtain ⟨-, hrest⟩ := Prod.mk.inj hemit
    obtain ⟨hregistry, hartifacts⟩ := Prod.mk.inj hrest
    rw [hregistry, hartifacts]
    refine emit_accounts hplan hs unit.key (settings.emissionScope sink given) rfl work.artifacts hmore
      fun planned hm => ?_
    rw [SourceUnit.plannedLayouts_eq hok]
    exact List.mem_append_right _ (List.mem_map_of_mem hm)

end

end UniformLayout
