import UniformLayout.Proofs.Compilation.Emitted
import UniformLayout.Proofs.Compilation.Origin
import UniformLayout.Proofs.Identity.Sealed
import UniformLayout.Proofs.Source.Names

/-!
# What a registry has stored

A registry stores the layouts of the types that it has generated. Operations on it store no other
layout, but for the emission of a plan, which stores the layouts that were made for the plan. So every
layout that is stored is sealed, as long as no unit names an aggregate like a base type: such a name
would have a hash, and stand for another type than the one that is laid out.

* `stores_compile`: what one call of `compile` stores.
* `sealed_of_plan`: the layouts that are made for a plan.

Main statement: `ReachedBy.stores_sealed`.
-/

namespace UniformLayout

variable {σ τ : Type}

/-! ## Stored layouts -/

/-- What the registry has generated has the property. -/
def Registry.Stores (P : StructLayout → Prop) (registry : Registry) : Prop :=
  ∀ record ∈ registry.records, ∀ descriptor, record.descriptor = some descriptor →
    P descriptor.layout

namespace Registry

variable {P : StructLayout → Prop} {registry : Registry}

theorem Stores.mono {Q : StructLayout → Prop} (h : registry.Stores P) (hpq : ∀ layout, P layout → Q layout) :
    registry.Stores Q :=
  fun record hm descriptor hd => hpq _ (h record hm descriptor hd)

theorem Stores.of_descriptorOfHash (h : registry.Stores P) {hash : String}
    {descriptor : LayoutDescriptor} (hd : registry.descriptorOfHash? hash = some descriptor) :
    P descriptor.layout := by
  unfold descriptorOfHash? ofHash? recordAt? at hd
  obtain ⟨record, hr, hd⟩ := Option.bind_eq_some_iff.1 hd
  obtain ⟨index, -, hr⟩ := Option.bind_eq_some_iff.1 hr
  exact h record (List.mem_of_getElem? hr) descriptor hd

/-- What has been begun tells what is stored. -/
theorem Stores.of_begun {after : Registry} (h : registry.Stores P) (hc : after.Consistent)
    (hb : after.begun = registry.begun) : after.Stores P := by
  intro record hm descriptor hd
  have hstate : record.state = .generated := by
    rw [← hc.described record hm, hd]
    rfl
  obtain ⟨i, hi⟩ := List.mem_iff_getElem?.1 hm
  have hbegun : core record ∈ after.begun := by
    refine mem_begun_iff.2 ⟨i, record, hi, rfl, ?_⟩
    rw [hstate]
    decide
  rw [hb] at hbegun
  obtain ⟨j, other, hj, hcore, -⟩ := mem_begun_iff.1 hbegun
  have hother : other.descriptor = record.descriptor := congrArg (·.2.2) hcore
  exact h other (List.mem_of_getElem? hj) descriptor (hother.trans hd)

theorem stores_empty (suffixLength : Nat) : Stores P { suffixLength } := by
  intro record hm
  cases hm

theorem stores_restore (h : registry.Stores P) (hw : registry.WellFormed) (kept : Snapshot) :
    (registry.restore kept).Stores P :=
  h.of_begun (wellFormed_restore hw kept).consistent (begun_restore registry kept)

theorem stores_registerAll (h : registry.Stores P) (hw : registry.WellFormed)
    {pairs : List (TypeDeclaration × String)} (hf : registry.FindsIds pairs) :
    (registry.registerAll pairs).2.Stores P := by
  have hr := registerAll_spec hw hf
  obtain ⟨minted, hcores⟩ := hr.cores
  exact h.of_begun hr.wellFormed.consistent (begun_of_cores minted hcores)

end Registry

/-! ## One call -/

section

variable {P : StructLayout → Prop} {inner : ArtifactSink τ} {runtime : String} {limit : Nat}

open Registry

theorem EmissionStep.stores {planned : PlannedType} {state : EmissionState (τ × List WriteRequest)}
    {result : Except CompileError EmittedType × EmissionState (τ × List WriteRequest)}
    (step : EmissionStep inner runtime limit planned state result)
    (h : state.registry.Stores P) (hp : planned.known = none → P planned.layout) :
    result.2.registry.Stores P := by
  cases step with
  | passed emitted made offered => exact h
  | written emitted artifacts generated made new stands pending hash units nested =>
    refine forall_mem_setRecord h fun record _ descriptor hd => ?_
    obtain rfl := Option.some.inj hd
    exact hp new
  | refused schemas artifacts key text refuses => exact h

/-- Emission stores the layouts that were made for the plan. -/
theorem EmissionRun.stores {types : List PlannedType}
    {state : EmissionState (τ × List WriteRequest)}
    {result : Except CompileError (List EmittedType) × EmissionState (τ × List WriteRequest)}
    (run : EmissionRun inner runtime limit types state result) (h : state.registry.Stores P)
    (hp : ∀ planned ∈ types, planned.known = none → P planned.layout) :
    result.2.registry.Stores P := by
  induction run with
  | done state => exact h
  | stopped settled step => exact step.stores h (hp _ List.mem_cons_self)
  | went settled step run ih =>
    obtain ⟨hfirst, hrest⟩ := List.forall_mem_cons.1 hp
    exact ih (step.stores h hfirst) hrest

/-- A plan that cannot be emitted is rolled back, which stores nothing. -/
theorem stores_emit {plan : Plan} {registry : Registry} (hplan : plan.Emittable registry limit)
    (hs : registry.Settled limit) (key : String) (scope : EmissionScope τ)
    (hlimit : scope.maxTextureUnits = limit) (artifacts : τ) (h : registry.Stores P)
    (hp : ∀ planned ∈ plan.types, planned.known = none → P planned.layout) :
    (plan.emit key scope.noting registry (artifacts, [])).2.1.Stores P := by
  have hregistered := stores_registerAll h hs.wellFormed hplan.ids
  have hsettled := (emit_spec hplan hs key scope hlimit artifacts).1
  obtain ⟨-, -, hrun⟩ := hplan.run hs scope hlimit artifacts rfl
  unfold Plan.emit at hsettled ⊢
  generalize registry.registerAll
    (plan.types.map fun planned => (planned.declaration, planned.contentHash)) = registered at *
  obtain ⟨registrations, after⟩ := registered
  dsimp only at *
  have hemitted := hrun.stores hregistered hp
  generalize emitAll scope.noting plan.types { registry := after, artifacts := (artifacts, []) } =
    emitted at *
  obtain ⟨e | types, state⟩ := emitted
  · exact hemitted.of_begun hsettled.wellFormed.consistent (begun_rollBack _ _)
  · exact hemitted

end

/-- Compiling a unit stores the layouts that are made for its plan. -/
theorem stores_compile {P : StructLayout → Prop} {settings : Settings} (allocator : SlotAllocator σ)
    (sink : ArtifactSink τ) {unit : SourceUnit} {work : Workspace σ τ}
    (reached : Reached settings work.registry) (ids : unit.FindsIds work.registry)
    (h : work.registry.Stores P)
    (hp : ∀ plan, (unit.plan work.registry).result = .ok plan →
      ∀ planned ∈ plan.types, planned.known = none → P planned.layout) :
    (compile settings allocator sink unit work).2.registry.Stores P := by
  obtain ⟨-, hnoting, -⟩ := compile_noting settings allocator sink unit work
  rw [← hnoting]
  rcases @compile_course σ τ settings allocator sink unit work ids with
    ⟨hregistry, -⟩ | ⟨plan, given, hok, hplan, hemit⟩
  · rw [hregistry]
    exact h
  · obtain ⟨-, hrest⟩ := Prod.mk.inj hemit
    obtain ⟨hregistry, -⟩ := Prod.mk.inj hrest
    rw [hregistry]
    exact stores_emit hplan reached.settled unit.key (settings.emissionScope sink given) rfl
      work.artifacts h (hp plan hok)

/-! ## Tables of layouts -/

/-- The layouts of the table have the property, and are known by their hashes. -/
def LayoutTable.Holds (P : StructLayout → Prop) (hashes : HashTable) (nested : LayoutTable) : Prop :=
  ∀ name below, nested.lookup name = some below →
    P below ∧ hashes.lookup name = some below.contentHash

theorem LayoutTable.Holds.cons {P : StructLayout → Prop} {hashes : HashTable}
    {nested : LayoutTable} (h : nested.Holds P hashes) {name : String} {layout : StructLayout}
    (hp : P layout) (hl : hashes.lookup name = some layout.contentHash) :
    LayoutTable.Holds P hashes ((name, layout) :: nested) := by
  intro other below hb
  rw [List.lookup_cons] at hb
  split at hb
  · rename_i he
    obtain rfl := Option.some.inj hb
    obtain rfl := eq_of_beq he
    exact ⟨hp, hl⟩
  · exact h other below hb

/-- The layout of a descriptor has the hash under which the descriptor is found. -/
theorem Registry.Settled.hash_of_descriptor {registry : Registry} {limit : Nat}
    (h : registry.Settled limit) {hash : String} {descriptor : LayoutDescriptor}
    (hd : registry.descriptorOfHash? hash = some descriptor) :
    descriptor.layout.contentHash = hash := by
  have hc := h.wellFormed.consistent
  unfold descriptorOfHash? at hd
  obtain ⟨record, hr, hrecord⟩ := Option.bind_eq_some_iff.1 hd
  have hidentity : record.identity.contentHash = hash := by
    apply hc.contentHash_identityOfHash
    unfold identityOfHash?
    rw [hr]
    rfl
  unfold ofHash? recordAt? at hr
  obtain ⟨index, -, hr⟩ := Option.bind_eq_some_iff.1 hr
  have hstate : record.state = .generated := by
    rw [← hc.described record (List.mem_of_getElem? hr), hrecord]
    rfl
  obtain ⟨-, other, ho, husable⟩ := h.begun _ _ _
    (mem_begun_iff.2 ⟨index, record, hr, rfl, by rw [hstate]; decide⟩)
  obtain rfl := Option.some.inj (hrecord.symm.trans ho)
  rw [husable.hash, hidentity]

section

variable {registry : Registry} {limit : Nat} {key : String}
  {decls distinct handled : List TypeDeclaration} {resolution referenced : Resolution}

/-- What a unit takes from the registry. -/
theorem Resolution.Course.reusedLayouts_holds {P : StructLayout → Prop}
    (hc : resolution.Course registry key decls distinct handled referenced)
    (hs : registry.Settled limit) (hstores : registry.Stores P) :
    resolution.reusedLayouts.Holds P resolution.hashes := by
  intro name below hl
  obtain ⟨before, after, hsplit, -⟩ := List.lookup_eq_some_iff.1 hl
  have hm : (name, below) ∈ resolution.reusedLayouts := by
    rw [hsplit]
    exact List.mem_append_right _ List.mem_cons_self
  obtain ⟨entry, hentry, he⟩ := List.mem_map.1 hm
  obtain ⟨rfl, rfl⟩ := Prod.mk.inj he
  rw [hc.parts.2] at hentry
  rcases List.mem_append.1 hentry with hentry | hentry
  · obtain ⟨-, hash, hd⟩ := (resolveReferences_spec hc.references).reused entry hentry
    have hhash := (resolveReferences_borrows hc.references).entry entry hentry
    have hknows : referenced.knows entry.name := by
      rw [Resolution.knows, hhash]
      rfl
    refine ⟨hstores.of_descriptorOfHash hd, ?_⟩
    rw [hc.hashes_eq, (addAll_hashes hc.names_nodup hc.unknown).2 _ hknows, hhash,
      (hs.usable hd).hash]
  · obtain ⟨decl, hdecl, hfound⟩ := List.mem_filterMap.1 hentry
    obtain ⟨descriptor, hd, rfl⟩ := Option.map_eq_some_iff.1 hfound
    refine ⟨hstores.of_descriptorOfHash hd, ?_⟩
    rw [hs.hash_of_descriptor hd]
    exact hc.lookup_hashOf decl hdecl

/-- A declaration that is handled has what it needs, on top of sealed layouts. -/
theorem Resolution.Course.ready
    (hc : resolution.Course registry key decls distinct handled referenced)
    (hu : UserNames decls) (hw : IdentifierFields decls) {nested : LayoutTable}
    (hn : nested.Holds StructLayout.Sealed resolution.hashes) {decl : TypeDeclaration}
    (hd : decl ∈ handled) (hcovers : nested.Covers decl.fields) :
    decl.Ready nested resolution.hashes where
  inner name below hl := (hn name below hl).1
  described := ⟨(hc.hash hu).2, fun name below hl => (hn name below hl).2⟩
  spelled := hw decl (mem_of_declared (hc.first.mem_iff.1 (hc.perm.mem_iff.1 hd)))
  covers := hcovers

/-- The layout was made for the declaration, under its own hash. -/
def SealedFor (hashes : HashTable) (resolved : ResolvedType) (layout : StructLayout) : Prop :=
  layout.Sealed ∧ layout.contentHash = resolved.contentHash ∧
    layout.print = resolved.declaration.fingerprint hashes

/-- The layouts that are made for a unit are sealed. -/
theorem Resolution.Course.made_sealed
    (hc : resolution.Course registry key decls distinct handled referenced)
    (hs : registry.Settled limit) (hstores : registry.Stores StructLayout.Sealed)
    (hu : UserNames decls) (hw : IdentifierFields decls) {fresh : List PlannedType}
    (hf : layOutAll resolution.reusedLayouts resolution.order = .ok fresh) :
    List.Forall₂ (PlannedType.MadeFrom (SealedFor resolution.hashes)) resolution.order fresh := by
  refine layOutAll_induction (I := LayoutTable.Holds StructLayout.Sealed resolution.hashes)
    (fun nested hn resolved hm layout made => ?_) (hc.reusedLayouts_holds hs hstores) hf
  rw [hc.parts.1] at hm
  obtain ⟨decl, hd, -, rfl⟩ := mem_newTypes.1 hm
  have hcovers := (eq_exactLayout (fun name below hl => (hn name below hl).1.laidOut) made).1
  have hready := hc.ready hu hw hn hd hcovers
  have hhash := contentHash_of_layOut made
  have hsealed : layout.Sealed := by
    rw [(hc.hash hu).1 decl hd] at made
    exact .intro hready.inner hready.described hready.spelled made
  refine ⟨⟨hsealed, hhash, print_of_layOut hready made⟩, hn.cons hsealed ?_⟩
  rw [hhash]
  exact hc.lookup_hashOf decl hd

end

/-! ## All calls of a compiler -/

/-- The unit declares no aggregate under the name of a base type. -/
def SourceUnit.OwnNames (unit : SourceUnit) : Prop :=
  ∀ contents shared, unit.read.result = .ok (contents, shared) →
    UserNames (shared ++ contents.declarations)

/-- The set of free uniforms has a name of its own as well. -/
theorem SourceUnit.OwnNames.userNames {unit : SourceUnit} (h : unit.OwnNames)
    {contents : SourceContents} {shared : List TypeDeclaration}
    (hread : unit.read.result = .ok (contents, shared)) :
    UserNames (SourceUnit.declarations contents shared) := by
  intro decl hm
  rcases List.mem_append.1 hm with hm | hm
  · exact h contents shared hread decl hm
  · rw [(uniformSet?_eq_some (Option.mem_toList.1 hm)).1]
    exact ofName?_uniformSetName _

/-- Where a plan of a unit comes from. -/
theorem SourceUnit.OwnNames.planned {unit : SourceUnit} (hown : unit.OwnNames) {registry : Registry}
    {limit : Nat} (hs : registry.Settled limit) (hstores : registry.Stores StructLayout.Sealed)
    {contents : SourceContents} {shared : List TypeDeclaration} {resolution : Resolution}
    (hread : unit.read.result = .ok (contents, shared))
    {distinct handled : List TypeDeclaration} {referenced : Resolution}
    (hc : resolution.Course registry unit.key (SourceUnit.declarations contents shared) distinct
      handled referenced) {types : List PlannedType} (ht : resolution.plannedTypes = .ok types) :
    List.Forall₂ (fun decl planned => planned.StandsFor registry (SealedFor resolution.hashes)
      (resolution.hashOf decl) decl) handled types := by
  obtain ⟨-, -, hw⟩ := declarations_of_read hread
  exact hc.planned ht fun fresh => hc.made_sealed hs hstores (hown.userNames hread) hw

theorem sealed_of_plan {unit : SourceUnit} (hown : unit.OwnNames) {registry : Registry} {limit : Nat}
    (hs : registry.Settled limit) (hstores : registry.Stores StructLayout.Sealed) {plan : Plan}
    (hplan : (unit.plan registry).result = .ok plan) :
    ∀ planned ∈ plan.types, planned.known = none → planned.layout.Sealed := by
  obtain ⟨contents, shared, resolution, hread, hr, ht⟩ := plan_eq_ok hplan
  obtain ⟨distinct, handled, referenced, hc⟩ := resolve_eq_ok hr
  intro planned hm hknown
  obtain ⟨decl, -, hstands⟩ := exists_of_mem_right (hown.planned hs hstores hread hc ht) hm
  exact (PlannedType.StandsFor.layout hstands hknown).1

/-- The registries to which calls of `compile` lead that compile admitted units only. -/
inductive ReachedBy (admitted : SourceUnit → Prop) (settings : Settings) : Registry → Prop
  | fresh : ReachedBy admitted settings { suffixLength := settings.registry.suffixLength }
  | restore {registry : Registry} (kept : Snapshot) (h : ReachedBy admitted settings registry) :
      ReachedBy admitted settings (registry.restore kept)
  | compile {σ τ : Type} (allocator : SlotAllocator σ) (sink : ArtifactSink τ) (unit : SourceUnit)
      (work : Workspace σ τ) (h : ReachedBy admitted settings work.registry)
      (ids : unit.FindsIds work.registry) (admits : admitted unit) :
      ReachedBy admitted settings (UniformLayout.compile settings allocator sink unit work).2.registry

theorem ReachedBy.reached {admitted : SourceUnit → Prop} {settings : Settings} {registry : Registry}
    (h : ReachedBy admitted settings registry) : Reached settings registry := by
  induction h with
  | fresh => exact .fresh
  | restore kept _ ih => exact .restore kept ih
  | compile allocator sink unit work _ ids _ ih => exact .compile allocator sink unit work ih ids

/-- **Seals.** Whatever such a compiler has stored was laid out under its own hash. -/
theorem ReachedBy.stores_sealed {settings : Settings} {registry : Registry}
    (h : ReachedBy SourceUnit.OwnNames settings registry) :
    registry.Stores StructLayout.Sealed := by
  induction h with
  | fresh => exact Registry.stores_empty _
  | restore kept h ih => exact Registry.stores_restore ih h.reached.settled.wellFormed kept
  | compile allocator sink unit work h ids hown ih =>
    exact stores_compile allocator sink h.reached ids ih fun plan hplan =>
      sealed_of_plan hown h.reached.settled ih hplan

end UniformLayout
