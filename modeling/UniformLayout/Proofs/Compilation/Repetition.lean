import UniformLayout.Proofs.Compilation.Absorption
import UniformLayout.Proofs.Compilation.Reuse
import UniformLayout.Proofs.Resolution.Lockstep

/-!
# Compiling again

When a unit is compiled again, all its types are taken from the registry, so nothing is registered or
written, and each type has the layout that the first type of its identity had.

* `plan_again`: the plan over a registry that has a layout for each hash of an earlier one.
* `compile_of_known`: a call all of whose types are known changes nothing but the slots.
* `Plan.RecalledBy.returnedAs`: what is returned for the two plans.

Main statement: `compile_again`. In `pose.glsl` two structs have one hash and different sizes, and one
of them has the size of the other when the unit is compiled again (`wide_resized`).
-/

namespace UniformLayout

variable {σ τ ρ : Type}

/-! ## Identities -/

namespace Registry

theorem identityOfHash?_setRecord (registry : Registry) (index : Nat) {change : Record → Record}
    (h : ∀ record, (change record).identity = record.identity) (hash : String) :
    (registry.setRecord index change).identityOfHash? hash = registry.identityOfHash? hash := by
  unfold identityOfHash? ofHash? recordAt?
  rw [show (registry.setRecord index change).byHash = registry.byHash from rfl]
  cases registry.byHash.lookup hash with
  | none => rfl
  | some i =>
    rw [Option.bind_some, Option.bind_some, getElem?_setRecord]
    split
    · cases registry.records[i]? with
      | none => rfl
      | some record => exact congrArg some (h record)
    · rfl

variable (registry : Registry) (id hash : String)

theorem identityOfHash?_beginGeneration :
    (registry.beginGeneration id).2.identityOfHash? hash = registry.identityOfHash? hash := by
  unfold beginGeneration
  split
  · rfl
  · split
    · exact identityOfHash?_setRecord registry _ (by exact fun _ => rfl) hash
    · rfl

theorem identityOfHash?_completeGeneration (descriptor : LayoutDescriptor) :
    (registry.completeGeneration id descriptor).identityOfHash? hash =
      registry.identityOfHash? hash := by
  unfold completeGeneration
  split
  · rfl
  · exact identityOfHash?_setRecord registry _ (by exact fun _ => rfl) hash

theorem identityOfHash?_abandonGeneration :
    (registry.abandonGeneration id).identityOfHash? hash = registry.identityOfHash? hash := by
  unfold abandonGeneration
  split
  · rfl
  · refine identityOfHash?_setRecord registry _ (fun record => ?_) hash
    split
    · rfl
    · rfl

end Registry

section

variable {scope : EmissionScope τ}

theorem identityOfHash?_generate (state : EmissionState τ) (identity : TypeIdentity)
    (descriptor : LayoutDescriptor) (schema : TypeSchema) (hash : String) :
    (state.generate scope identity descriptor schema).2.registry.identityOfHash? hash =
      state.registry.identityOfHash? hash := by
  have hclaimed :=
    state.registry.identityOfHash?_beginGeneration identity.persistentId hash
  unfold EmissionState.generate
  dsimp only
  split
  · rfl
  · rename_i claimed hb
    rw [hb] at hclaimed
    split
    · exact (Registry.identityOfHash?_abandonGeneration _ _ _).trans hclaimed
    · exact (Registry.identityOfHash?_completeGeneration _ _ _ _).trans hclaimed

/-- A type is returned under the identity of its hash. -/
theorem emitType_identity {planned : PlannedType} {state : EmissionState τ} {emitted : EmittedType}
    (h : (emitType scope planned state).1 = .ok emitted) :
    state.registry.identityOfHash? planned.contentHash = some emitted.identity ∧
      ∀ hash, (emitType scope planned state).2.registry.identityOfHash? hash =
        state.registry.identityOfHash? hash := by
  unfold emitType at h ⊢
  split at h
  · cases h
  · rename_i identity hi
    dsimp only at h ⊢
    split at h
    · cases h
    · rename_i schema schemas _
      split at h
      · rename_i hknown
        obtain rfl := Except.ok.inj h
        rw [if_pos hknown]
        exact ⟨hi, fun _ => rfl⟩
      · rename_i hknown
        rw [if_neg hknown]
        refine ⟨?_, identityOfHash?_generate _ _ _ _⟩
        cases hg : (EmissionState.generate scope identity
            (planned.known.getD ⟨identity, planned.layout⟩) schema { state with schemas }).1 with
        | error e =>
          dsimp only at h
          rw [hg] at h
          cases h
        | ok written =>
          dsimp only at h
          rw [hg] at h
          obtain rfl := Except.ok.inj h
          exact hi

theorem emitAll_identities {types : List PlannedType} {state after : EmissionState τ}
    {emitted : List EmittedType} (h : emitAll scope types state = (.ok emitted, after)) :
    (∀ hash, after.registry.identityOfHash? hash = state.registry.identityOfHash? hash) ∧
      List.Forall₂ (fun planned emitted =>
        after.registry.identityOfHash? planned.contentHash = some emitted.identity)
        types emitted := by
  induction types generalizing state emitted with
  | nil =>
    obtain ⟨he, rfl⟩ := Prod.mk.inj h
    obtain rfl := Except.ok.inj he
    exact ⟨fun _ => rfl, .nil⟩
  | cons planned rest ih =>
    unfold emitAll at h
    rcases ht : emitType scope planned state with ⟨e | first, between⟩
    · rw [ht] at h
      cases h
    · obtain ⟨hfirst, hsame⟩ := emitType_identity (congrArg Prod.fst ht)
      rw [ht] at h hsame
      dsimp only at h hsame
      rcases ho : emitAll scope rest between with ⟨e | others, last⟩
      · rw [ho] at h
        cases h
      · rw [ho] at h
        obtain ⟨he, rfl⟩ := Prod.mk.inj h
        obtain rfl := Except.ok.inj he
        obtain ⟨hlast, hothers⟩ := ih ho
        refine ⟨fun hash => (hlast hash).trans (hsame hash), .cons ?_ hothers⟩
        rw [hlast, hsame, hfirst]

end

/-! ## Types that are known -/

/-- A type that is taken from the registry keeps the descriptor that it has there. -/
theorem PlannedType.TakenFor.known {registry : Registry} {hash : String} {decl : TypeDeclaration}
    {planned : PlannedType} (h : planned.TakenFor registry hash decl) :
    ∃ descriptor, registry.descriptorOfHash? hash = some descriptor ∧
      planned.known = some descriptor ∧ planned.layout = descriptor.layout ∧
      planned.contentHash = descriptor.identity.contentHash := by
  obtain ⟨descriptor, hd, rfl⟩ := h
  exact ⟨descriptor, hd, rfl, rfl, rfl⟩

/-- All types are taken from the registry. -/
def AllTaken (registry : Registry) (types : List PlannedType) : Prop :=
  ∀ planned ∈ types, ∃ hash decl, planned.TakenFor registry hash decl

section

variable {scope : EmissionScope τ}

theorem emitType_of_known {planned : PlannedType} {state : EmissionState τ}
    (hs : state.registry.Settled scope.maxTextureUnits) {hash : String} {decl : TypeDeclaration}
    (h : planned.TakenFor state.registry hash decl) :
    ∃ emitted schemas, emitType scope planned state = (.ok emitted, { state with schemas }) := by
  have hc := hs.wellFormed.consistent
  obtain ⟨descriptor, hd, rfl⟩ := h
  have husable := hs.usable hd
  obtain ⟨identity, hi⟩ := Option.isSome_iff_exists.1 (husable.layout.head.accepted hc).1
  rw [husable.hash] at hi
  obtain ⟨⟨schema, schemas⟩, hschema⟩ := @toSchema_isOk
    ⟨state.registry, scope.maxTextureUnits⟩ descriptor.layout
    (husable.layout.mono fun _ ho => ho.accepted hc) state.schemas
  dsimp only at hi
  unfold emitType
  dsimp only [Option.getD_some]
  rw [hi]
  dsimp only
  rw [hschema]
  exact ⟨_, schemas, rfl⟩

/-- Types that are known are returned, and nothing is written. -/
theorem emitAll_of_known {types : List PlannedType} {state : EmissionState τ}
    (hs : state.registry.Settled scope.maxTextureUnits) (h : AllTaken state.registry types) :
    ∃ emitted schemas, emitAll scope types state = (.ok emitted, { state with schemas }) := by
  induction types generalizing state with
  | nil => exact ⟨[], state.schemas, rfl⟩
  | cons planned rest ih =>
    obtain ⟨⟨hash, decl, htaken⟩, hrest⟩ := List.forall_mem_cons.1 h
    obtain ⟨first, schemas, hfirst⟩ := emitType_of_known hs htaken
    obtain ⟨others, later, hothers⟩ := @ih { state with schemas } hs hrest
    refine ⟨first :: others, later, ?_⟩
    unfold emitAll
    rw [hfirst]
    dsimp only
    rw [hothers]
    rfl

end

/-- **Known types.** A call all of whose types are known and in place changes nothing but the slots, and
succeeds if there are slots. -/
theorem compile_of_known {settings : Settings} (allocator : SlotAllocator σ) (sink : ArtifactSink τ)
    {unit : SourceUnit} {work : Workspace σ τ}
    (hs : work.registry.Settled settings.bindings.maxTextureUnits) {plan : Plan}
    (hplan : (unit.plan work.registry).result = .ok plan)
    (htaken : AllTaken work.registry plan.types)
    (hplace : work.registry.InPlace
      (plan.types.map fun planned => (planned.declaration, planned.contentHash))) :
    (compile settings allocator sink unit work).2.registry = work.registry ∧
      (compile settings allocator sink unit work).2.artifacts = work.artifacts ∧
      (∀ again, (compile settings allocator sink unit work).1.result = .ok again →
        again.key = unit.key ∧ again.generated = [] ∧ again.warnings = plan.warnings ∧
          again.anonymousBlocks = plan.anonymousBlocks) ∧
      ∀ given, (assignSlots settings.bindings.maxTextureUnits allocator plan.types work.slots).1 =
        .ok given → ∃ again, (compile settings allocator sink unit work).1.result = .ok again := by
  have hsame := (Registry.registerAll_of_inPlace hs.wellFormed.consistent hplace).2
  unfold compile
  rcases hp : unit.plan work.registry with ⟨notices, result⟩
  rw [hp] at hplan
  obtain rfl : result = .ok plan := hplan
  dsimp only
  rcases assignSlots settings.bindings.maxTextureUnits allocator plan.types work.slots with
    ⟨e | given, slots⟩
  · refine ⟨rfl, rfl, ?_, ?_⟩
    · intro again h
      cases h
    · intro given h
      cases h
  · unfold Plan.emit
    generalize work.registry.registerAll
      (plan.types.map fun planned => (planned.declaration, planned.contentHash)) = registered at hsame
    obtain ⟨registrations, registry⟩ := registered
    obtain rfl : registry = work.registry := hsame
    dsimp only
    obtain ⟨emitted, schemas, he⟩ := @emitAll_of_known τ
      (settings.emissionScope sink given) plan.types
      { registry := work.registry, artifacts := work.artifacts } hs htaken
    unfold Settings.emissionScope at he
    rw [he]
    refine ⟨rfl, rfl, fun again h => ?_, fun _ _ => ⟨_, rfl⟩⟩
    obtain rfl := Except.ok.inj h
    exact ⟨rfl, rfl, rfl, rfl⟩

/-! ## Plans -/

section

variable {registry another : Registry} {limit : Nat}

/-- A layout has the hash and the kind of the declaration that it was made for. -/
def LaidOutFor (resolved : ResolvedType) (layout : StructLayout) : Prop :=
  layout.contentHash = resolved.contentHash ∧ layout.kind = resolved.declaration.kind

theorem Resolution.Course.stands {key : String} {decls distinct handled : List TypeDeclaration}
    {resolution referenced : Resolution}
    (hc : resolution.Course registry key decls distinct handled referenced)
    {types : List PlannedType} (ht : resolution.plannedTypes = .ok types) :
    List.Forall₂ (fun decl planned =>
      planned.StandsFor registry LaidOutFor (resolution.hashOf decl) decl) handled types := by
  refine hc.planned ht fun fresh => layOutAll_induction (I := fun _ => True) ?_ trivial
  intro table _ resolved _ layout hl
  obtain ⟨hhash, hkind, -⟩ := layOut_drawsOn hl
  exact ⟨⟨hhash, hkind⟩, trivial⟩

theorem PlannedType.StandsFor.contentHash {P : ResolvedType → StructLayout → Prop}
    {planned : PlannedType} {hash : String} {decl : TypeDeclaration}
    (h : planned.StandsFor registry P hash decl) (hs : registry.Settled limit) :
    planned.contentHash = hash := by
  rcases h with ⟨descriptor, hd, rfl⟩ | ⟨-, hmade⟩
  · exact (hs.usable hd).hash.symm.trans (hs.hash_of_descriptor hd)
  · exact hmade.contentHash

/-- What each type of a plan stands for. -/
theorem plan_stands {unit : SourceUnit} {plan : Plan} (hs : registry.Settled limit)
    (hplan : (unit.plan registry).result = .ok plan) :
    ∀ planned ∈ plan.types,
      planned.StandsFor registry LaidOutFor planned.contentHash planned.declaration := by
  obtain ⟨contents, shared, resolution, -, hr, ht⟩ := plan_eq_ok hplan
  obtain ⟨distinct, handled, referenced, hc⟩ := resolve_eq_ok hr
  intro planned hm
  obtain ⟨decl, -, hstands⟩ := exists_of_mem_right (hc.stands ht) hm
  rwa [PlannedType.StandsFor.contentHash hstands hs, PlannedType.StandsFor.declaration hstands]

theorem contentHash_of_plan {unit : SourceUnit} {plan : Plan} (hs : registry.Settled limit)
    (hplan : (unit.plan registry).result = .ok plan) :
    ∀ planned ∈ plan.types, planned.layout.contentHash = planned.contentHash := by
  intro planned hm
  rcases plan_stands hs hplan planned hm with ⟨descriptor, hd, hplanned⟩ | ⟨-, hmade⟩
  · rw [congrArg PlannedType.layout hplanned]
    exact hs.hash_of_descriptor hd
  · exact hmade.layout.1

/-- The unit can be planned over a registry that has a layout for each of its hashes. All its types are
taken from there. -/
theorem plan_again {unit : SourceUnit} {plan : Plan} (hs : registry.Settled limit)
    (hplan : (unit.plan registry).result = .ok plan)
    (hkept : ∀ hash descriptor, registry.descriptorOfHash? hash = some descriptor →
      another.descriptorOfHash? hash = some descriptor)
    (hnames : ∀ name, name ∉ plan.types.map PlannedType.name →
      another.resolveDeclaredIn? name unit.key = registry.resolveDeclaredIn? name unit.key)
    (hstored : ∀ planned ∈ plan.types, (another.descriptorOfHash? planned.contentHash).isSome) :
    ∃ again, (unit.plan another).result = .ok again ∧ again.warnings = plan.warnings ∧
      again.anonymousBlocks = plan.anonymousBlocks ∧
      List.Forall₂ (fun planned taken =>
        taken.TakenFor another planned.contentHash planned.declaration) plan.types again.types := by
  obtain ⟨contents, shared, resolution, types, hread, hr, ht, rfl⟩ := plan_eq_ok_iff.1 hplan
  dsimp only at hnames hstored ⊢
  obtain ⟨distinct, handled, referenced, hc⟩ := resolve_eq_ok hr
  have hstands := hc.stands ht
  have hother : ∀ name, declared? (SourceUnit.declarations contents shared) name = none →
      another.resolveDeclaredIn? name unit.key = registry.resolveDeclaredIn? name unit.key := by
    intro name hnone
    refine hnames name fun hm => ?_
    obtain ⟨planned, hp, rfl⟩ := List.mem_map.1 hm
    obtain ⟨decl, hd, hdecl⟩ := exists_of_mem_right hstands hp
    rw [PlannedType.name, PlannedType.StandsFor.declaration hdecl, hc.mem_handled.1 hd] at hnone
    cases hnone
  obtain ⟨other, ho, hhashes, hwaves⟩ := resolve_over_grown hkept hother hr
  obtain ⟨distinct', handled', referenced', hc'⟩ := resolve_eq_ok ho
  obtain rfl := hc.handled_eq hc' hwaves
  have hsame : other.hashOf = resolution.hashOf := by
    funext decl
    unfold Resolution.hashOf
    rw [hhashes]
  have hknown : ∀ decl ∈ handled', (another.descriptorOfHash? (other.hashOf decl)).isSome := by
    intro decl hd
    obtain ⟨planned, hp, hdecl⟩ := exists_of_mem_left hstands hd
    rw [hsame, ← PlannedType.StandsFor.contentHash hdecl hs]
    exact hstored planned hp
  -- No declaration needs a layout.
  have hnothing : other.order = [] := by
    rw [hc'.parts.1, newTypes, List.filterMap_eq_nil_iff]
    intro decl hd
    rw [if_pos (hknown decl hd)]
  have ht' : ∃ types', other.plannedTypes = .ok types' := by
    unfold Resolution.plannedTypes
    rw [hnothing]
    exact ⟨_, rfl⟩
  obtain ⟨types', ht'⟩ := ht'
  refine ⟨_, plan_eq_ok_iff.2 ⟨contents, shared, other, types', hread, ho, ht', rfl⟩, rfl, rfl, ?_⟩
  refine forall₂_of_common ((List.forall₂_and_left _ _).2 ⟨hknown, hstands⟩) (hc'.stands ht') ?_
  rintro decl planned taken ⟨hsome, hplanned⟩ htaken
  rw [PlannedType.StandsFor.contentHash hplanned hs, PlannedType.StandsFor.declaration hplanned, ← hsame]
  rcases htaken with htaken | ⟨hnone, -⟩
  · exact htaken
  · rw [hnone] at hsome
    cases hsome

end

/-! ## Slots -/

/-- The free uniforms of a plan find their texture units. -/
def UniformsFit (limit : Nat) (types : List PlannedType) : Prop :=
  ∀ planned ∈ types, planned.declaration.kind = .uniformSet →
    ∃ firsts, assignTextureUnits planned.layout.fields limit = .ok firsts

/-- Plans of the same declarations are given the same slots, unless texture units are wanting. -/
theorem assignSlots_of_fit {limit : Nat} {allocator : SlotAllocator σ}
    {types others : List PlannedType}
    (h : List.Forall₂ (fun planned other => other.declaration = planned.declaration) types others)
    (hfit : UniformsFit limit types) (hfit' : UniformsFit limit others) (slots : σ) :
    assignSlots limit allocator others slots = assignSlots limit allocator types slots := by
  induction h generalizing slots with
  | nil => rfl
  | @cons planned other rest rest' hdecl _ ih =>
    obtain ⟨hfirst, hrest⟩ := List.forall_mem_cons.1 hfit
    obtain ⟨hfirst', hrest'⟩ := List.forall_mem_cons.1 hfit'
    rw [hdecl] at hfirst'
    unfold assignSlots
    rw [PlannedType.name, PlannedType.name, hdecl]
    cases hk : planned.declaration.kind with
    | struct => exact ih hrest hrest' slots
    | uniformSet =>
      obtain ⟨firsts, hu⟩ := hfirst hk
      obtain ⟨firsts', hu'⟩ := hfirst' hk
      dsimp only
      rw [hu, hu']
      exact ih hrest hrest' slots
    | uniformBlock request instanceName packing =>
      dsimp only
      simp only [ih hrest hrest']

/-! ## The same plan again -/

/-- The plan has been absorbed by a registry, and the other one is the plan over that registry. -/
structure Plan.RecalledBy (limit : Nat) (before after : Registry) (plan again : Plan) : Prop where
  stands : ∀ planned ∈ plan.types,
    planned.StandsFor before LaidOutFor planned.contentHash planned.declaration
  absorbed : before.Absorbs limit plan.types after
  warnings : again.warnings = plan.warnings
  anonymousBlocks : again.anonymousBlocks = plan.anonymousBlocks
  taken : List.Forall₂ (fun planned taken =>
    taken.TakenFor after planned.contentHash planned.declaration) plan.types again.types

/-- The type is taken from the registry for the same declaration, with the first layout of its hash. -/
structure PlannedType.RecalledAs (registry : Registry) (types : List PlannedType)
    (planned taken : PlannedType) : Prop where
  stored : taken.TakenFor registry planned.contentHash planned.declaration
  declaration : taken.declaration = planned.declaration
  contentHash : taken.contentHash = planned.contentHash
  layout : firstLayout? types planned.contentHash = some taken.layout

/-- The kind of the layout, its size, and the name, the offset and the size of each field. -/
def StructLayout.places (layout : StructLayout) :
    DeclarationKind × Nat × List (String × Nat × Nat) :=
  (layout.kind.skeleton, layout.size,
    layout.fields.map fun field => (field.name, field.offset, field.size))

theorem exists_firstLayout {types : List PlannedType} {planned : PlannedType}
    (hm : planned ∈ types) : ∃ first ∈ types, first.contentHash = planned.contentHash ∧
      firstLayout? types planned.contentHash = some first.layout := by
  unfold firstLayout?
  cases hf : types.find? (·.contentHash == planned.contentHash) with
  | none => exact absurd (beq_self_eq_true _) (List.find?_eq_none.1 hf planned hm)
  | some first => exact ⟨first, List.mem_of_find?_eq_some hf, eq_of_beq (List.find?_some hf :), rfl⟩

namespace Plan.RecalledBy

variable {limit : Nat} {before after : Registry} {plan again : Plan}

/-- For the hashes of the plan, the first layout has been stored. -/
theorem stored (h : plan.RecalledBy limit before after again) {planned : PlannedType}
    (hm : planned ∈ plan.types) :
    after.stored? planned.contentHash = firstLayout? plan.types planned.contentHash := by
  obtain ⟨first, hf, hhash, hfirst⟩ := exists_firstLayout hm
  rw [h.absorbed.stored, hfirst, ← hhash]
  unfold Registry.stored?
  rcases h.stands first hf with ⟨descriptor, hd, he⟩ | ⟨hnone, -⟩
  · rw [hd, congrArg PlannedType.layout he]
    rfl
  · rw [hnone]
    rfl

theorem recalled (h : plan.RecalledBy limit before after again) :
    List.Forall₂ (PlannedType.RecalledAs after plan.types) plan.types again.types := by
  refine ((List.forall₂_and_left _ _).2 ⟨fun planned hm => h.stored hm, h.taken⟩).imp ?_
  rintro planned taken ⟨hstored, descriptor, hd, rfl⟩
  have husable := h.absorbed.settled.usable hd
  refine ⟨⟨descriptor, hd, rfl⟩, rfl, husable.hash.symm.trans (h.absorbed.settled.hash_of_descriptor hd), ?_⟩
  rw [← hstored, Registry.stored?, hd]
  rfl

theorem allTaken (h : plan.RecalledBy limit before after again) : AllTaken after again.types := by
  intro taken hm
  obtain ⟨planned, -, htaken⟩ := exists_of_mem_right h.taken hm
  exact ⟨_, _, htaken⟩

theorem inPlace (h : plan.RecalledBy limit before after again) : after.InPlace
    (again.types.map fun planned => (planned.declaration, planned.contentHash)) := by
  rw [map_eq_of_forall₂ h.recalled fun planned _ taken hr => by
    rw [hr.declaration, hr.contentHash]]
  exact h.absorbed.inPlace

/-- The free uniforms find their texture units again, if types with one hash have their fields in the
same places. -/
theorem fits (h : plan.RecalledBy limit before after again) (hfit : UniformsFit limit plan.types)
    (hplaces : ∀ first ∈ plan.types, ∀ second ∈ plan.types,
      first.contentHash = second.contentHash → first.layout.places = second.layout.places) :
    UniformsFit limit again.types := by
  intro taken hm hkind
  obtain ⟨planned, hp, hrecalled⟩ := exists_of_mem_right h.recalled hm
  rw [hrecalled.declaration] at hkind
  rcases h.stands planned hp with ⟨descriptor, hd, he⟩ | ⟨hnone, hmade⟩
  · -- The registry had this layout before, and it has been tried out with the plan.
    obtain ⟨other, ho, rfl⟩ := hrecalled.stored
    obtain rfl := Option.some.inj ((h.absorbed.kept _ _ hd).symm.trans ho)
    have hlayout : planned.layout = descriptor.layout := congrArg PlannedType.layout he
    dsimp only
    rw [← hlayout]
    exact hfit planned hp hkind
  · obtain ⟨first, hf, hhash, hfirst⟩ := exists_firstLayout hp
    rw [Option.some.inj (hrecalled.layout.symm.trans hfirst)]
    rcases h.stands first hf with ⟨descriptor, hd, -⟩ | ⟨-, hown⟩
    · rw [hhash, hnone] at hd
      cases hd
    · have hsame : first.layout.kind.skeleton = planned.layout.kind.skeleton :=
        congrArg Prod.fst (hplaces first hf planned hp hhash)
      rw [hown.layout.2, hmade.layout.2, hkind] at hsame
      refine hfit first hf ?_
      cases hk : first.declaration.kind with
      | uniformSet => rfl
      | struct =>
        rw [hk] at hsame
        cases hsame
      | uniformBlock request instanceName packing =>
        rw [hk] at hsame
        cases hsame

end Plan.RecalledBy

/-! ## What is returned -/

/-- Types with one identity have their fields in the same places. -/
def CompiledUnit.FixesPlaces (unit : CompiledUnit) : Prop :=
  ∀ first ∈ unit.types, ∀ second ∈ unit.types, first.identity = second.identity →
    first.descriptor.layout.places = second.descriptor.layout.places

instance (unit : CompiledUnit) : Decidable unit.FixesPlaces :=
  inferInstanceAs (Decidable (∀ first ∈ unit.types, ∀ second ∈ unit.types,
    first.identity = second.identity →
      first.descriptor.layout.places = second.descriptor.layout.places))

/-- The type is returned again, with the layout of the first type of its identity. -/
structure EmittedType.ReturnedAs (types : List EmittedType) (emitted again : EmittedType) : Prop where
  name : again.declaredName = emitted.declaredName
  identity : again.identity = emitted.identity
  slot : again.bindingSlot = emitted.bindingSlot
  layout : (types.find? (·.identity == emitted.identity)).map (·.descriptor.layout) =
    some again.descriptor.layout

/-- The unit is returned again, and nothing is generated for it. -/
structure CompiledUnit.ReturnedAs (unit again : CompiledUnit) : Prop where
  key : again.key = unit.key
  types : List.Forall₂ (EmittedType.ReturnedAs unit.types) unit.types again.types
  generated : again.generated = []
  warnings : again.warnings = unit.warnings
  anonymousBlocks : again.anonymousBlocks = unit.anonymousBlocks

/-- Types with one identity have one layout the second time. -/
theorem EmittedType.ReturnedAs.places {unit : CompiledUnit} {emitted again : EmittedType}
    (h : emitted.ReturnedAs unit.types again) (hm : emitted ∈ unit.types) (hf : unit.FixesPlaces) :
    again.descriptor.layout.places = emitted.descriptor.layout.places := by
  obtain ⟨first, hfound, hlayout⟩ := Option.map_eq_some_iff.1 h.layout
  rw [← hlayout]
  exact hf first (List.mem_of_find?_eq_some hfound) emitted hm (eq_of_beq (List.find?_some hfound :))

/-- An entry that is found in one list corresponds to the one that is found in the other. -/
theorem find?_of_forall₂ {α β γ : Type} {R : α → β → Prop} {p : α → Bool} {q : β → Bool}
    {f : α → γ} {g : β → γ} {as : List α} {bs : List β} (h : List.Forall₂ R as bs)
    (hpq : ∀ a b, R a b → q b = p a) (hfg : ∀ a b, R a b → g b = f a) :
    (bs.find? q).map g = (as.find? p).map f := by
  induction h with
  | nil => rfl
  | @cons a b _ _ hab _ ih =>
    rw [List.find?_cons, List.find?_cons, hpq a b hab]
    cases p a with
    | true => exact congrArg some (hfg a b hab)
    | false => exact ih

/-- The type is returned as the plan has it, under the identity of its hash. -/
structure PlannedType.Returned (registry : Registry) (slots : SlotTable) (planned : PlannedType)
    (emitted : EmittedType) : Prop where
  identity : registry.identityOfHash? planned.contentHash = some emitted.identity
  emitted : planned.EmittedAs slots (fun _ _ => True) emitted

/-- The first type that is returned with an identity has the first layout of its hash. -/
theorem firstLayout_of_returned {registry : Registry} {slots : SlotTable} {planned : PlannedType}
    {emitted : EmittedType} (h : planned.Returned registry slots emitted) {types : List PlannedType}
    {returned : List EmittedType}
    (ht : List.Forall₂ (PlannedType.Returned registry slots) types returned) :
    (returned.find? (·.identity == emitted.identity)).map (·.descriptor.layout) =
      firstLayout? types planned.contentHash := by
  refine find?_of_forall₂ ht (fun other found ho => ?_) fun other found ho => ho.emitted.layout
  -- A hash and the identity that belongs to it tell each other.
  refine Bool.eq_iff_iff.2 ⟨fun he => ?_, fun he => ?_⟩
  · rw [beq_iff_eq] at he ⊢
    rw [← ho.emitted.identity, he, h.emitted.identity]
  · rw [beq_iff_eq] at he ⊢
    have hi := ho.identity
    rw [he] at hi
    exact Option.some.inj (hi.symm.trans h.identity)

/-- If types with one identity have their fields in the same places, then types with one hash do. -/
theorem CompiledUnit.FixesPlaces.places_eq {unit : CompiledUnit} (h : unit.FixesPlaces)
    {registry : Registry} {slots : SlotTable} {types : List PlannedType}
    (ht : List.Forall₂ (PlannedType.Returned registry slots) types unit.types) :
    ∀ first ∈ types, ∀ second ∈ types,
      first.contentHash = second.contentHash → first.layout.places = second.layout.places := by
  intro first hf second hs hhash
  obtain ⟨emitted, hfirst, hef⟩ := exists_of_mem_left ht hf
  obtain ⟨emitted', hsecond, hes⟩ := exists_of_mem_left ht hs
  have hi := hef.identity
  rw [hhash] at hi
  rw [← hef.emitted.layout, ← hes.emitted.layout]
  exact h emitted hfirst emitted' hsecond (Option.some.inj (hi.symm.trans hes.identity))

/-- What is returned for a plan and for the plan that recalls it. -/
theorem Plan.RecalledBy.returnedAs {limit : Nat} {before after : Registry} {plan again : Plan}
    (h : plan.RecalledBy limit before after again) {slots : SlotTable}
    {types types' : List EmittedType}
    (ht : List.Forall₂ (PlannedType.Returned after slots) plan.types types)
    (ht' : List.Forall₂ (PlannedType.Returned after slots) again.types types') :
    List.Forall₂ (EmittedType.ReturnedAs types) types types' := by
  have hlater : List.Forall₂ (fun planned again' => ∃ taken,
      PlannedType.RecalledAs after plan.types planned taken ∧
        PlannedType.Returned after slots taken again') plan.types types' :=
    forall₂_of_common h.recalled.flip ht' fun taken _ _ hr hreturned => ⟨taken, hr, hreturned⟩
  refine forall₂_of_common ht hlater ?_
  rintro planned emitted again' hfirst ⟨taken, hrecalled, hsecond⟩
  have hidentity : again'.identity = emitted.identity := by
    have hi := hsecond.identity
    rw [hrecalled.contentHash] at hi
    exact Option.some.inj (hi.symm.trans hfirst.identity)
  have hname : taken.name = planned.name := congrArg TypeDeclaration.name hrecalled.declaration
  refine ⟨?_, hidentity, ?_, ?_⟩
  · rw [hsecond.emitted.name, hname, hfirst.emitted.name]
  · rw [hsecond.emitted.slot, hname, hfirst.emitted.slot]
  · rw [hsecond.emitted.layout, ← hrecalled.layout]
    exact firstLayout_of_returned hfirst ht

/-! ## Compiling again -/

section

variable {settings : Settings} {allocator : SlotAllocator σ} {sink : ArtifactSink τ}
  {unit : SourceUnit} {work : Workspace σ τ} {compiled : CompiledUnit}

/-- What is returned for the plan of a unit. -/
theorem returned_of_compile (reached : Reached settings work.registry)
    (ids : unit.FindsIds work.registry) {plan : Plan}
    (hplan : (unit.plan work.registry).result = .ok plan)
    (h : (compile settings allocator sink unit work).1.result = .ok compiled) :
    ∃ given, (assignSlots settings.bindings.maxTextureUnits allocator plan.types work.slots).1 =
        .ok given ∧
      List.Forall₂ (PlannedType.Returned (compile settings allocator sink unit work).2.registry given)
        plan.types compiled.types := by
  obtain ⟨other, given, state, ho, ha, he, hafter, -⟩ := compile_emits h
  obtain rfl := Except.ok.inj (ho.symm.trans hplan)
  obtain ⟨-, hidentities⟩ := emitAll_identities he
  obtain ⟨given', ha', hemitted⟩ := emittedAs_of_compile reached ids hplan h
  obtain rfl := Except.ok.inj (ha.symm.trans ha')
  refine ⟨given, ha, ?_⟩
  rw [hafter]
  refine List.forall₂_iff_zip.2 ⟨hidentities.length_eq, fun hz => ?_⟩
  exact ⟨List.forall₂_zip hidentities hz, List.forall₂_zip hemitted hz⟩

/-- Once a unit is compiled, its plan can be recalled. -/
theorem recalledBy_of_compile (reached : Reached settings work.registry)
    (ids : unit.FindsIds work.registry) {plan : Plan}
    (hplan : (unit.plan work.registry).result = .ok plan)
    (h : (compile settings allocator sink unit work).1.result = .ok compiled) :
    ∃ again,
      (unit.plan (compile settings allocator sink unit work).2.registry).result = .ok again ∧
      plan.RecalledBy settings.bindings.maxTextureUnits work.registry
        (compile settings allocator sink unit work).2.registry again := by
  obtain ⟨other, given, state, ho, ha, he, hafter, -⟩ := compile_emits h
  obtain rfl := Except.ok.inj (ho.symm.trans hplan)
  have hs := reached.settled
  have hstands := plan_stands hs hplan
  have habsorbs := (emittable_of_plan hplan ids ha).absorbs hs (contentHash_of_plan hs hplan)
    (settings.emissionScope sink given) rfl he
  rw [← hafter] at habsorbs
  have hstored : ∀ planned ∈ other.types, ((compile settings allocator sink unit
      work).2.registry.descriptorOfHash? planned.contentHash).isSome := by
    intro planned hm
    obtain ⟨first, -, -, hfirst⟩ := exists_firstLayout hm
    rw [← Option.isSome_map, ← Registry.stored?, habsorbs.stored, hfirst, Option.isSome_or]
    exact Bool.or_true _
  obtain ⟨again, hagain, hwarnings, hblocks, htaken⟩ :=
    plan_again hs hplan habsorbs.kept (fun name hn => habsorbs.names name hn unit.key) hstored
  exact ⟨again, hagain, hstands, habsorbs, hwarnings, hblocks, htaken⟩

/-- **Compiling again.** A unit that has been compiled can be compiled again with the slots that the
first call has found. Nothing is written then, the registry does not change, and the same types are
returned; each has the layout that the first type of its identity had. -/
theorem compile_again (reached : Reached settings work.registry)
    (ids : unit.FindsIds work.registry)
    (h : (compile settings allocator sink unit work).1.result = .ok compiled)
    (another : ArtifactSink ρ) {later : Workspace σ ρ}
    (hregistry : later.registry = (compile settings allocator sink unit work).2.registry)
    (hslots : later.slots = work.slots) :
    (compile settings allocator another unit later).2.registry = later.registry ∧
      (compile settings allocator another unit later).2.artifacts = later.artifacts ∧
      compileRequests settings allocator another unit later = [] ∧
      (∀ again, (compile settings allocator another unit later).1.result = .ok again →
        compiled.ReturnedAs again) ∧
      (compiled.FixesPlaces →
        ∃ again, (compile settings allocator another unit later).1.result = .ok again ∧
          List.Forall₂ (fun emitted again =>
            again.descriptor.layout.places = emitted.descriptor.layout.places)
            compiled.types again.types) := by
  obtain ⟨plan, given, state, hplan, ha, he, hafter, hcompiled⟩ := compile_emits h
  obtain ⟨again, hagain, hrecalled⟩ := recalledBy_of_compile reached ids hplan h
  obtain ⟨given', ha', hreturned⟩ := returned_of_compile reached ids hplan h
  obtain rfl := Except.ok.inj (ha.symm.trans ha')
  have reached' : Reached settings later.registry := by
    rw [hregistry]
    exact .compile allocator sink unit work reached ids
  rw [← hregistry] at hagain hrecalled hreturned
  have hs' := reached'.settled
  have ids' : unit.FindsIds later.registry := by
    intro other ho
    obtain rfl := Except.ok.inj (hagain.symm.trans ho)
    exact (Registry.registerAll_of_inPlace hs'.wellFormed.consistent hrecalled.inPlace).1
  obtain ⟨hsame, hartifacts, hparts, hok⟩ := compile_of_known allocator another hs' hagain
    hrecalled.allTaken hrecalled.inPlace
  obtain ⟨-, hrequests, -⟩ := @compile_of_known σ (ρ × List WriteRequest) settings allocator
    another.noting unit later.noting hs' again hagain hrecalled.allTaken hrecalled.inPlace
  have hfit : UniformsFit settings.bindings.maxTextureUnits plan.types := assignSlots_eq_ok ha
  have hslotted : ∀ hfit' : UniformsFit settings.bindings.maxTextureUnits again.types,
      (assignSlots settings.bindings.maxTextureUnits allocator again.types later.slots).1 =
        .ok given := by
    intro hfit'
    rw [hslots, assignSlots_of_fit (hrecalled.recalled.imp fun _ _ hr => hr.declaration) hfit hfit']
    exact ha
  have hreturns : ∀ second,
      (compile settings allocator another unit later).1.result = .ok second →
        compiled.ReturnedAs second := by
    intro second hsecond
    obtain ⟨given', ha', hreturned'⟩ := returned_of_compile reached' ids' hagain hsecond
    obtain rfl := Except.ok.inj ((hslotted (assignSlots_eq_ok ha')).symm.trans ha')
    rw [hsame] at hreturned'
    obtain ⟨hkey, hgenerated, hwarnings, hblocks⟩ := hparts second hsecond
    refine ⟨hkey.trans (congrArg CompiledUnit.key hcompiled).symm,
      hrecalled.returnedAs hreturned hreturned', hgenerated, ?_, ?_⟩
    · rw [hwarnings, hrecalled.warnings, congrArg CompiledUnit.warnings hcompiled]
    · rw [hblocks, hrecalled.anonymousBlocks, congrArg CompiledUnit.anonymousBlocks hcompiled]
  refine ⟨hsame, hartifacts, congrArg Prod.snd hrequests, hreturns, fun hfixes => ?_⟩
  obtain ⟨second, hsecond⟩ := hok given
    (hslotted (hrecalled.fits hfit (hfixes.places_eq hreturned)))
  refine ⟨second, hsecond, ?_⟩
  refine ((List.forall₂_and_left _ _).2 ⟨fun _ hm => hm, (hreturns second hsecond).types⟩).imp ?_
  rintro emitted found ⟨hm, hr⟩
  exact hr.places hm hfixes

end

/-! ## Two declarations with one hash -/

/-- The workspace in which a unit is compiled again: as the first call has left it, but for the slots. -/
def Workspace.again (work : Workspace σ τ) (settings : Settings) (allocator : SlotAllocator σ)
    (sink : ArtifactSink τ) (unit : SourceUnit) : Workspace σ τ :=
  { (compile settings allocator sink unit work).2 with slots := work.slots }

/-- One structure under two names. -/
def twinUnit : SourceUnit where
  key := "twin.glsl"
  text := "struct Lamp\x7bfloat range;\x7d;struct Bulb\x7bfloat range;\x7d;"

/-- The structure is written once, and not at all the second time. -/
theorem compile_again_twin :
    ∃ compiled again,
      (compile {} BindingPool.allocator memorySink twinUnit freshWork).1.result = .ok compiled ∧
      (compile {} BindingPool.allocator memorySink twinUnit
        (freshWork.again {} BindingPool.allocator memorySink twinUnit)).1.result = .ok again ∧
      compiled.generated = ["Lamp"] ∧ compiled.ReturnedAs again ∧
      compileRequests {} BindingPool.allocator memorySink twinUnit
        (freshWork.again {} BindingPool.allocator memorySink twinUnit) = [] := by
  obtain ⟨hids, hcompiled⟩ : twinUnit.findsFirstIds freshWork.registry = true ∧
      (compile {} BindingPool.allocator memorySink twinUnit
        freshWork).1.result.toOption.any (fun compiled =>
          decide (compiled.generated = ["Lamp"] ∧ compiled.FixesPlaces)) = true := by
    decide +kernel
  obtain ⟨compiled, h, hchecked⟩ := exists_ok_of_any hcompiled
  obtain ⟨hgenerated, hfixes⟩ := of_decide_eq_true hchecked
  obtain ⟨-, -, hrequests, hreturns, hok⟩ := compile_again Reached.fresh
    (findsIds_of_plan hids) h memorySink
    (rfl : (freshWork.again {} BindingPool.allocator memorySink twinUnit).registry = _) rfl
  obtain ⟨again, hagain, -⟩ := hok hfixes
  exact ⟨compiled, again, h, hagain, hgenerated, hreturns again hagain, hrequests⟩

/-- `Wide` and `Narrow` have one hash, but `Narrow` has a sampler where `Wide` has a matrix. -/
def poseUnit : SourceUnit where
  key := "pose.glsl"
  text := "struct sampler3DShadow\x7bmat4 m;\x7d;struct Pose\x7bmat4 m;\x7d;
struct Wide\x7bPose p;\x7d;struct Narrow\x7bsampler3DShadow p;\x7d;"

/-- `Wide` has 64 bytes at first, and the 16 bytes of `Narrow` when the unit is compiled again. -/
theorem wide_resized :
    ∃ compiled again,
      (compile {} BindingPool.allocator memorySink poseUnit freshWork).1.result = .ok compiled ∧
      (compile {} BindingPool.allocator memorySink poseUnit
        (freshWork.again {} BindingPool.allocator memorySink poseUnit)).1.result = .ok again ∧
      (compiled.type? "Wide").map (·.descriptor.layout.size) = some 64 ∧
      (again.type? "Wide").map (·.descriptor.layout.size) = some 16 := by
  have hchecked : ((compile {} BindingPool.allocator memorySink poseUnit
        freshWork).1.result.toOption.any (fun compiled => decide
          ((compiled.type? "Wide").map (·.descriptor.layout.size) = some 64)) &&
      (compile {} BindingPool.allocator memorySink poseUnit
        (freshWork.again {} BindingPool.allocator memorySink poseUnit)).1.result.toOption.any
          (fun again => decide
            ((again.type? "Wide").map (·.descriptor.layout.size) = some 16))) = true := by
    decide +kernel
  obtain ⟨hcompiled, hagain⟩ := Bool.and_eq_true_iff.1 hchecked
  obtain ⟨compiled, h, hsize⟩ := exists_ok_of_any hcompiled
  obtain ⟨again, h', hsize'⟩ := exists_ok_of_any hagain
  exact ⟨compiled, again, h, h', of_decide_eq_true hsize, of_decide_eq_true hsize'⟩

end UniformLayout
