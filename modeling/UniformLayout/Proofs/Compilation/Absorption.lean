import UniformLayout.Proofs.Compilation.Accounts
import UniformLayout.Proofs.Compilation.Emitted
import UniformLayout.Proofs.Registry.Declared

/-!
# What a compiled unit leaves behind

Once the types of a plan are emitted, the registry has stored a layout for each of their hashes: the one
that it had before, or the first one of the plan. The declarations are in place, and whatever was known
before is still known, by the same names (`Registry.Absorbs`).

* `EmissionRun.stored`: what emission stores, by induction on the run.
* `Plan.Emittable.emission`, `Plan.Emittable.adopts`: what emitting a plan does to layouts and names.

Main statement: `Plan.Emittable.absorbs`.
-/

namespace UniformLayout

variable {τ : Type}

/-! ## What is stored -/

namespace Registry

variable {registry another : Registry} {limit : Nat}

theorem Consistent.descriptorOfHash?_eq_some_iff (h : registry.Consistent) {hash : String}
    {descriptor : LayoutDescriptor} : registry.descriptorOfHash? hash = some descriptor ↔
      ∃ identity, identity.contentHash = hash ∧
        (identity, .generated, some descriptor) ∈ registry.begun := by
  constructor
  · intro hd
    unfold descriptorOfHash? ofHash? recordAt? at hd
    obtain ⟨record, hr, hd⟩ := Option.bind_eq_some_iff.1 hd
    obtain ⟨index, hl, hr⟩ := Option.bind_eq_some_iff.1 hr
    have hs : record.state = .generated := by
      rw [← h.described record (List.mem_of_getElem? hr), hd]
      rfl
    obtain ⟨other, ho, hhash⟩ := h.getElem?_of_lookup_hash hl
    obtain rfl := Option.some.inj (hr.symm.trans ho)
    refine ⟨record.identity, hhash, mem_begun_iff.2 ⟨index, record, hr, ?_, ?_⟩⟩
    · rw [core, hs, hd]
    · rw [hs]
      decide
  · rintro ⟨identity, rfl, hm⟩
    obtain ⟨index, record, hr, hcore, -⟩ := mem_begun_iff.1 hm
    obtain rfl : record.identity = identity := congrArg Prod.fst hcore
    unfold descriptorOfHash?
    rw [h.ofHash_of_getElem? hr]
    exact congrArg (·.2.2) hcore

/-- What has been begun tells what is stored. -/
theorem descriptorOfHash?_of_begun (h : registry.Consistent) (h' : another.Consistent)
    (hb : another.begun = registry.begun) (hash : String) :
    another.descriptorOfHash? hash = registry.descriptorOfHash? hash := by
  refine Option.ext fun descriptor => ?_
  rw [h.descriptorOfHash?_eq_some_iff, h'.descriptorOfHash?_eq_some_iff, hb]

/-- The layout that the registry has stored for a hash. -/
def stored? (registry : Registry) (hash : String) : Option StructLayout :=
  (registry.descriptorOfHash? hash).map LayoutDescriptor.layout

/-- A layout for whatever is on offer has been stored. -/
theorem Settled.isSome_stored (h : registry.Settled limit) {layout : StructLayout}
    (ho : registry.Offers limit layout) : (registry.stored? layout.contentHash).isSome := by
  obtain ⟨⟨identity, descriptor?, hm, he⟩, -⟩ := ho
  obtain ⟨-, descriptor, rfl, -⟩ := h.begun _ _ _ hm
  unfold stored?
  rw [h.wellFormed.consistent.descriptorOfHash?_eq_some_iff.2 ⟨identity, he, hm⟩]
  rfl

/-- Writing a pending type stores its layout, and nothing else. -/
theorem stored_setGenerated (h : registry.Consistent) {index : Nat} {record : Record}
    (hr : registry.records[index]? = some record) (hp : record.state = .pending)
    {layout : StructLayout} (hhash : layout.contentHash = record.identity.contentHash)
    (hash : String) :
    (registry.setRecord index (generatedWith ⟨record.identity, layout⟩)).stored? hash =
      (registry.stored? hash).or (if layout.contentHash = hash then some layout else none) := by
  have hat : registry.byHash.lookup layout.contentHash = some index := by
    rw [h.byHash, hashes, List.getElem?_map, hr, hhash]
    rfl
  have hnone : record.descriptor = none := by
    have hd := h.described record (List.mem_of_getElem? hr)
    rw [hp] at hd
    exact Option.not_isSome_iff_eq_none.1 fun hsome => by cases hd.1 hsome
  unfold stored? descriptorOfHash? ofHash? recordAt?
  rw [show (registry.setRecord index (generatedWith ⟨record.identity, layout⟩)).byHash =
    registry.byHash from rfl]
  cases hl : registry.byHash.lookup hash with
  | none =>
    rw [if_neg fun he => by rw [he, hl] at hat; cases hat]
    rfl
  | some i =>
    rw [Option.bind_some, Option.bind_some, getElem?_setRecord]
    split
    · rename_i he
      subst he
      obtain ⟨other, ho, hother⟩ := h.getElem?_of_lookup_hash hl
      obtain rfl := Option.some.inj (hr.symm.trans ho)
      rw [hr, if_pos (hhash.trans hother), Option.map_some, Option.bind_some, Option.bind_some, hnone]
      rfl
    · rename_i hne
      rw [if_neg, Option.or_none]
      rintro rfl
      exact hne (Option.some.inj (hat.symm.trans hl))

end Registry

/-- The layout of the first type with the hash. -/
def firstLayout? (types : List PlannedType) (hash : String) : Option StructLayout :=
  (types.find? (·.contentHash == hash)).map PlannedType.layout

theorem firstLayout?_cons (planned : PlannedType) (rest : List PlannedType) (hash : String) :
    firstLayout? (planned :: rest) hash =
      (if planned.contentHash = hash then some planned.layout else none).or
        (firstLayout? rest hash) := by
  unfold firstLayout?
  rw [List.find?_cons]
  by_cases he : planned.contentHash = hash
  · rw [if_pos he, beq_iff_eq.2 he]
    rfl
  · rw [if_neg he, beq_eq_false_iff_ne.2 he]
    rfl

section

open Registry

variable {inner : ArtifactSink τ} {runtime : String} {limit : Nat}

/-- A type is written unless there is a layout for its hash. -/
theorem EmissionStep.stored {planned : PlannedType} {state after : EmissionState (τ × List WriteRequest)}
    {emitted : EmittedType}
    (step : EmissionStep inner runtime limit planned state (.ok emitted, after))
    (hs : state.registry.Settled limit) (hhash : planned.layout.contentHash = planned.contentHash)
    (hash : String) :
    after.registry.stored? hash = (state.registry.stored? hash).or
      (if planned.contentHash = hash then some planned.layout else none) := by
  rw [← hhash]
  cases step with
  | passed emitted made offered =>
    split
    · rename_i he
      obtain ⟨layout, hl⟩ := Option.isSome_iff_exists.1 (hs.isSome_stored offered.head)
      rw [← he, hl]
      rfl
    · exact Option.or_none.symm
  | written emitted artifacts generated made new stands pending own units nested =>
    exact stored_setGenerated hs.wellFormed.consistent stands pending own _

/-- What is stored in the end is what was stored before, or the first layout of the hash. -/
theorem EmissionRun.stored {types : List PlannedType} {state : EmissionState (τ × List WriteRequest)}
    {result : Except CompileError (List EmittedType) × EmissionState (τ × List WriteRequest)}
    (run : EmissionRun inner runtime limit types state result)
    (hh : ∀ planned ∈ types, planned.layout.contentHash = planned.contentHash)
    {emitted : List EmittedType} (h : result.1 = .ok emitted) (hash : String) :
    result.2.registry.stored? hash =
      (state.registry.stored? hash).or (firstLayout? types hash) := by
  induction run generalizing emitted with
  | done state => exact Option.or_none.symm
  | stopped settled step => cases h
  | @went planned rest first others state between after settled step run ih =>
    obtain ⟨hfirst, hrest⟩ := List.forall_mem_cons.1 hh
    cases others with
    | error e => cases h
    | ok others =>
      rw [ih hrest rfl, step.stored settled hfirst, Option.or_assoc, firstLayout?_cons]

end

/-! ## The registry afterwards -/

namespace Registry

variable {before after : Registry} {limit : Nat}

/-- A name means the same where it has the same declarations and no identity has moved. -/
theorem resolveDeclaredIn?_of_same (h : before.Consistent) {name : String}
    (hd : after.declarationsOf name = before.declarationsOf name)
    (hi : ∀ (i : Nat) (record : Record), before.records[i]? = some record →
      (after.records[i]?).map Record.identity = some record.identity) (source : String) :
    after.resolveDeclaredIn? name source = before.resolveDeclaredIn? name source := by
  unfold resolveDeclaredIn?
  dsimp only
  rw [hd]
  cases he : ((before.declarationsOf name).find? (·.1 == source)).or
      (before.declarationsOf name).head? with
  | none => rfl
  | some entry =>
    have hm : entry ∈ before.declarationsOf name := by
      rcases Option.or_eq_some_iff.1 he with hf | ⟨-, hf⟩
      · exact List.mem_of_find?_eq_some hf
      · exact List.mem_of_head? hf
    obtain ⟨record, hr, -⟩ := (h.declared name entry.1 entry.2).1 hm
    unfold recordAt?
    rw [Option.map_some, Option.bind_some, Option.bind_some, hi _ _ hr, hr]
    rfl

/-- What is in place stays there while types are written. -/
theorem InPlace.of_advances {requests : List WriteRequest}
    {pairs : List (TypeDeclaration × String)} (h : before.InPlace pairs)
    (ha : Advances requests before after) : after.InPlace pairs := by
  intro pair hm
  obtain ⟨index, identity, hhash, hplaced⟩ := h pair hm
  refine ⟨index, identity, hhash, (ha.identity_at index).trans hplaced.identity_eq, ?_⟩
  rw [ha.indices]
  exact hplaced.listed

/-- What was registered stays registered while types are written. -/
theorem Adopts.of_advances {requests : List WriteRequest} {middle : Registry}
    {pairs : List (TypeDeclaration × String)} (h : Adopts pairs before middle)
    (ha : Advances requests middle after) : Adopts pairs before after := by
  have hlists : ∀ name, after.declarationsOf name = middle.declarationsOf name := by
    intro name
    rw [ha.indices]
    rfl
  refine ⟨fun name => ?_, fun index identity hi => ?_, fun name entry hm => ?_,
    h.inPlace.of_advances ha⟩
  · rw [hlists]
    exact h.declarations name
  · exact (ha.identity_at index).trans (h.identity_at index identity hi)
  · rw [hlists] at hm
    refine (h.listed name entry hm).imp_right ?_
    rintro ⟨pair, hpair, halias, identity, hhash, hplaced⟩
    refine ⟨pair, hpair, halias, identity, hhash, (ha.identity_at _).trans hplaced.identity_eq, ?_⟩
    rw [hlists]
    exact hplaced.listed

/-- The types of a plan have been registered, and the registry has a layout for each of them. Nothing that
was known before has changed. -/
structure Absorbs (limit : Nat) (types : List PlannedType) (before after : Registry) : Prop where
  settled : after.Settled limit
  stored : ∀ hash, after.stored? hash = (before.stored? hash).or (firstLayout? types hash)
  kept : ∀ hash descriptor, before.descriptorOfHash? hash = some descriptor →
    after.descriptorOfHash? hash = some descriptor
  inPlace : after.InPlace (types.map fun planned => (planned.declaration, planned.contentHash))
  names : ∀ name, name ∉ types.map PlannedType.name →
    ∀ source, after.resolveDeclaredIn? name source = before.resolveDeclaredIn? name source

end Registry

section

open Registry

variable {plan : Plan} {registry : Registry} {limit : Nat}

/-- Emitting the types of a plan stores layouts for them, and changes nothing else. -/
theorem Plan.Emittable.emission (h : plan.Emittable registry limit) (hs : registry.Settled limit)
    (hhash : ∀ planned ∈ plan.types, planned.layout.contentHash = planned.contentHash)
    (scope : EmissionScope τ) (hlimit : scope.maxTextureUnits = limit) {artifacts : τ}
    {emitted : List EmittedType} {state : EmissionState τ}
    (he : emitAll scope plan.types (plan.start registry artifacts) = (.ok emitted, state)) :
    state.registry.Settled limit ∧
      (∃ requests, Advances requests (plan.start registry artifacts).registry state.registry) ∧
      ∀ hash, state.registry.stored? hash =
        ((plan.start registry artifacts).registry.stored? hash).or (firstLayout? plan.types hash) := by
  obtain ⟨hsettled, -, hrun⟩ := h.run hs scope hlimit artifacts rfl
  have hsame := (emitAll_noting scope plan.types { registry := (registry.registerAll
    (plan.types.map fun planned => (planned.declaration, planned.contentHash))).2
                                                   artifacts := (artifacts, []) }).trans he
  unfold Plan.start
  generalize (registry.registerAll
    (plan.types.map fun planned => (planned.declaration, planned.contentHash))).2 = mid at *
  generalize emitAll scope.noting plan.types { registry := mid, artifacts := (artifacts, []) } =
    result at hrun hsame
  obtain ⟨outcome, last⟩ := result
  obtain ⟨rfl, rfl⟩ : outcome = .ok emitted ∧ last.forget = state := Prod.mk.inj hsame
  obtain ⟨⟨hsettled', hadvances, -⟩, -⟩ := hrun.spec hsettled
  exact ⟨hsettled', ⟨_, hadvances⟩, hrun.stored hhash rfl⟩

/-- The declarations of a plan are registered, and stay so when its types are emitted. -/
theorem Plan.Emittable.adopts (h : plan.Emittable registry limit) (hs : registry.Settled limit)
    (hhash : ∀ planned ∈ plan.types, planned.layout.contentHash = planned.contentHash)
    (scope : EmissionScope τ) (hlimit : scope.maxTextureUnits = limit) {artifacts : τ}
    {emitted : List EmittedType} {state : EmissionState τ}
    (he : emitAll scope plan.types (plan.start registry artifacts) = (.ok emitted, state)) :
    Adopts (plan.types.map fun planned => (planned.declaration, planned.contentHash)) registry
      state.registry := by
  obtain ⟨-, ⟨requests, hadvances⟩, -⟩ := h.emission hs hhash scope hlimit he
  exact (adopts_registerAll hs.wellFormed h.ids).of_advances hadvances

/-- A plan that is emitted is absorbed. -/
theorem Plan.Emittable.absorbs (h : plan.Emittable registry limit) (hs : registry.Settled limit)
    (hhash : ∀ planned ∈ plan.types, planned.layout.contentHash = planned.contentHash)
    (scope : EmissionScope τ) (hlimit : scope.maxTextureUnits = limit) {artifacts : τ}
    {emitted : List EmittedType} {state : EmissionState τ}
    (he : emitAll scope plan.types (plan.start registry artifacts) = (.ok emitted, state)) :
    Absorbs limit plan.types registry state.registry := by
  have hadopts := h.adopts hs hhash scope hlimit he
  obtain ⟨hsettled, ⟨requests, hadvances⟩, hstored⟩ := h.emission hs hhash scope hlimit he
  have hr := registerAll_spec hs.wellFormed h.ids
  have hbegun := (h.run hs scope hlimit artifacts rfl).2.1
  have hnames : ∀ name, name ∉ plan.types.map PlannedType.name → (registry.registerAll
      (plan.types.map fun planned => (planned.declaration, planned.contentHash))).2.declarationsOf
        name = registry.declarationsOf name := by
    intro name hn
    refine declarationsOf_registerAll ?_
    rwa [List.map_map]
  unfold Plan.start at hadvances hstored
  generalize (registry.registerAll
    (plan.types.map fun planned => (planned.declaration, planned.contentHash))).2 = mid at *
  have hdescriptors := descriptorOfHash?_of_begun hs.wellFormed.consistent
    hr.wellFormed.consistent hbegun
  refine ⟨hsettled, fun hash => ?_, fun hash descriptor hd => ?_, hadopts.inPlace,
    fun name hn => ?_⟩
  · rw [hstored]
    unfold stored?
    rw [hdescriptors]
  · rw [← hdescriptors] at hd
    obtain ⟨identity, hidentity, hm⟩ :=
      hr.wellFormed.consistent.descriptorOfHash?_eq_some_iff.1 hd
    exact hsettled.wellFormed.consistent.descriptorOfHash?_eq_some_iff.2
      ⟨identity, hidentity, hadvances.begun hm⟩
  · refine resolveDeclaredIn?_of_same hs.wellFormed.consistent ?_ fun i record hrecord => ?_
    · rw [hadvances.indices]
      exact hnames name hn
    · exact hadopts.identity_at i record.identity (by rw [hrecord]; rfl)

end

end UniformLayout
