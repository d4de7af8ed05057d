import UniformLayout.Proofs.Compilation.Replan
import UniformLayout.Proofs.Schema.Outline
import UniformLayout.Proofs.Schema.Regular

/-!
# Reuse

Compiling a unit that declares every aggregate it uses gives the same over any registry of the compiler
as over a fresh one: it succeeds over both or over none, and each declared type has the same layout, the
same texture units and the same slot. So it makes no difference whether a layout was made for the unit
or for some other one, under another name.

* `compile_isOk`: a unit that can be planned and given slots is compiled, unless the sink refuses.
* `sameTypes_of_matches`: what is returned for plans that match.

Main statement: `compile_over_fresh`.
-/

namespace UniformLayout

variable {σ τ : Type}

/-! ## Fingerprints of what is stored -/

mutual

/-- The fingerprints of the layout and of all layouts nested in it. -/
def StructLayout.prints : StructLayout → List String
  | ⟨name, contentHash, kind, fields, size, alignment⟩ =>
    StructLayout.print ⟨name, contentHash, kind, fields, size, alignment⟩ :: printsOf fields

def FieldShape.prints : FieldShape → List String
  | .base _ => []
  | .aggregate layout => layout.prints

def printsOf : List FieldLayout → List String
  | [] => []
  | ⟨_, _, shape, _, _, _, _, _⟩ :: rest => shape.prints ++ printsOf rest

end

theorem mem_printsOf {fields : List FieldLayout} {field : FieldLayout} (hm : field ∈ fields) :
    field.shape.prints ⊆ printsOf fields := by
  induction fields with
  | nil => cases hm
  | cons first rest ih =>
    obtain ⟨name, typeName, shape, offset, size, alignment, array, qualifiers⟩ := first
    rw [printsOf]
    rcases List.mem_cons.1 hm with rfl | hm
    · exact List.subset_append_left _ _
    · exact fun text ht => List.mem_append_right _ (ih hm ht)

/-- The fingerprints of the layout, at any depth, are all listed. -/
theorem StructLayout.Throughout.prints {P : StructLayout → Prop} {layout : StructLayout}
    (h : layout.Throughout P) {texts : List String} (ht : layout.prints ⊆ texts) :
    layout.Throughout (·.print ∈ texts) := by
  induction h with
  | @intro layout _ _ ih =>
    have hsplit : layout.prints = layout.print :: printsOf layout.fields := by
      cases layout
      rw [StructLayout.prints]
    rw [hsplit] at ht
    obtain ⟨hself, hrest⟩ := List.cons_subset.1 ht
    refine .intro hself fun field hm inner hs => ih field hm inner hs ?_
    have hfield := mem_printsOf hm
    rw [hs, FieldShape.prints] at hfield
    exact List.Subset.trans hfield hrest

/-- The fingerprints of all layouts that the registry has stored. -/
def Registry.prints (registry : Registry) : List String :=
  registry.records.flatMap fun record =>
    record.descriptor.elim [] fun descriptor => descriptor.layout.prints

theorem ReachedBy.stores_sealedIn {settings : Settings} {registry : Registry}
    (h : ReachedBy SourceUnit.OwnNames settings registry) {texts : List String}
    (ht : registry.prints ⊆ texts) : registry.Stores (StructLayout.SealedIn texts) := by
  intro record hm descriptor hd
  have hsealed := h.stores_sealed record hm descriptor hd
  refine ⟨hsealed, hsealed.throughout.prints fun text htext => ht (List.mem_flatMap.2 ⟨record, hm, ?_⟩)⟩
  rw [hd]
  exact htext

/-! ## Units that are compiled -/

/-- The sink stores whatever it is asked to store. -/
def ArtifactSink.Infallible (sink : ArtifactSink τ) : Prop :=
  ∀ e, ¬ sink.Refuses e

theorem plan_isOk {unit : SourceUnit} {registry : Registry} {contents : SourceContents}
    {shared : List TypeDeclaration} {resolution : Resolution} {types : List PlannedType}
    (hread : unit.read.result = .ok (contents, shared))
    (hr : (resolve registry unit.key (SourceUnit.declarations contents shared)).result =
      .ok resolution) (ht : resolution.plannedTypes = .ok types) :
    ∃ plan, (unit.plan registry).result = .ok plan ∧ plan.types = types := by
  exact ⟨_, plan_eq_ok_iff.2 ⟨contents, shared, resolution, types, hread, hr, ht, rfl⟩, rfl⟩

/-- A unit that can be planned and whose blocks have their slots is compiled. -/
theorem compile_isOk {settings : Settings} {allocator : SlotAllocator σ} {sink : ArtifactSink τ}
    {unit : SourceUnit} {work : Workspace σ τ}
    (hs : work.registry.Settled settings.bindings.maxTextureUnits)
    (ids : unit.FindsIds work.registry) (infallible : sink.Infallible) {plan : Plan}
    (hplan : (unit.plan work.registry).result = .ok plan) {given : SlotTable}
    (ha : (assignSlots settings.bindings.maxTextureUnits allocator plan.types work.slots).1 =
      .ok given) :
    ∃ compiled, (compile settings allocator sink unit work).1.result = .ok compiled := by
  cases hr : (compile settings allocator sink unit work).1.result with
  | error e =>
    obtain ⟨cause, hrefuses, -⟩ := sink_of_emission_error hs ids hplan ha hr
    exact absurd hrefuses (infallible cause)
  | ok compiled => exact ⟨compiled, rfl⟩

/-! ## Types that are returned -/

/-- The types are declared under one name and bound to one slot, and their layouts and schemas differ in
names, hashes and locations only. -/
structure EmittedType.SameAs (emitted other : EmittedType) : Prop where
  name : emitted.declaredName = other.declaredName
  slot : emitted.bindingSlot = other.bindingSlot
  layout : emitted.descriptor.layout.skeleton = other.descriptor.layout.skeleton
  schema : emitted.schema.skeleton = other.schema.skeleton

/-- What is returned for plans that match. -/
theorem sameTypes_of_matches {types types' : List PlannedType} {emitted emitted' : List EmittedType}
    {given : SlotTable} {known : String → TypeSchema}
    (hm : List.Forall₂ PlannedType.Matches types types')
    (h : List.Forall₂ (PlannedType.EmittedAs given fun hash schema => schema.skeleton = known hash)
      types emitted)
    (h' : List.Forall₂ (PlannedType.EmittedAs given fun hash schema => schema.skeleton = known hash)
      types' emitted') : List.Forall₂ EmittedType.SameAs emitted emitted' := by
  have hplanned : List.Forall₂ (fun emitted planned' => ∃ planned, PlannedType.Matches planned planned' ∧
      planned.EmittedAs given (fun hash schema => schema.skeleton = known hash) emitted)
      emitted types' :=
    forall₂_of_common h hm fun planned _ _ he hmatches => ⟨planned, hmatches, he⟩
  refine forall₂_of_common hplanned.flip h' ?_
  rintro planned' first second ⟨planned, hmatches, he⟩ he'
  have hname : planned.name = planned'.name := congrArg TypeDeclaration.name hmatches.declaration
  refine ⟨?_, ?_, ?_, ?_⟩
  · rw [he.name, he'.name, hname]
  · rw [he.slot, he'.slot, hname]
  · rw [he.layout, he'.layout, hmatches.skeleton]
  · rw [he.schema, he'.schema, hmatches.contentHash]

/-! ## Two registries -/

/-- The unit declares every aggregate that it uses. -/
def SourceUnit.DeclaresAll (unit : SourceUnit) : Prop :=
  ∀ contents shared, unit.read.result = .ok (contents, shared) →
    ∀ decl ∈ SourceUnit.declarations contents shared, ∀ field ∈ decl.fields,
      field.baseType? = none →
        (declared? (SourceUnit.declarations contents shared) field.typeName).isSome

theorem SourceUnit.DeclaresAll.selfContained {unit : SourceUnit} (h : unit.DeclaresAll)
    (hown : unit.OwnNames) {contents : SourceContents} {shared : List TypeDeclaration}
    (hread : unit.read.result = .ok (contents, shared)) :
    SelfContained (SourceUnit.declarations contents shared) :=
  ⟨h contents shared hread, hown.userNames hread⟩

/-- The texts tell the fingerprints of the unit, over any registry that it is resolved over. -/
def SourceUnit.PrintedIn (unit : SourceUnit) (texts : List String) : Prop :=
  ∀ registry contents shared resolution, unit.read.result = .ok (contents, shared) →
    (resolve registry unit.key (SourceUnit.declarations contents shared)).result = .ok resolution →
      fingerprints (SourceUnit.declarations contents shared) resolution.hashes ⊆ texts

/-- **Reuse.** A unit that is compiled over one registry is compiled over the other as well, and returns
the same types. -/
theorem compile_over {settings : Settings} {allocator : SlotAllocator σ} {sink : ArtifactSink τ}
    {unit : SourceUnit} {work other : Workspace σ τ} {texts : List String}
    (reached : ReachedBy SourceUnit.OwnNames settings work.registry)
    (reached' : ReachedBy SourceUnit.OwnNames settings other.registry)
    (own : unit.OwnNames) (all : unit.DeclaresAll) (infallible : sink.Infallible)
    (ids : unit.FindsIds work.registry) (ids' : unit.FindsIds other.registry)
    (hslots : other.slots = work.slots) (hno : NoCollision texts)
    (hprints : work.registry.prints ⊆ texts) (hprints' : other.registry.prints ⊆ texts)
    (hunit : unit.PrintedIn texts) {compiled : CompiledUnit}
    (h : (compile settings allocator sink unit work).1.result = .ok compiled) :
    ∃ compiled', (compile settings allocator sink unit other).1.result = .ok compiled' ∧
      List.Forall₂ EmittedType.SameAs compiled.types compiled'.types := by
  obtain ⟨plan, given, hplan, ha, -⟩ := compile_eq_ok h
  obtain ⟨contents, shared, resolution, hread, hr, ht⟩ := plan_eq_ok hplan
  obtain ⟨-, -, hw⟩ := declarations_of_read hread
  have hu := all.selfContained own hread
  have hs := reached.reached.settled
  have hs' := reached'.reached.settled
  have hstores := reached.stores_sealedIn hprints
  have hstores' := reached'.stores_sealedIn hprints'
  -- The plan over the other registry.
  obtain ⟨resolution', hr', hhashes, hwaves⟩ := resolve_over hu other.registry hr
  obtain ⟨types', ht', hsealed, hmatches⟩ := plannedTypes_over hu hw hno (hunit _ _ _ _ hread hr) hr hs hstores
    hr' hs' hstores' hhashes hwaves ht
  obtain ⟨plan', hplan', rfl⟩ := plan_isOk hread hr' ht'
  have ha' : (assignSlots settings.bindings.maxTextureUnits allocator plan'.types other.slots).1 =
      .ok given := by
    rw [hslots, assignSlots_eq allocator hmatches]
    exact ha
  obtain ⟨compiled', h'⟩ := compile_isOk hs' ids' infallible hplan' ha'
  refine ⟨compiled', h', ?_⟩
  -- What both calls return is known from the hashes.
  obtain ⟨known, hknown⟩ := exists_known_skeleton hno
  have hall : ∀ planned ∈ plan.types ++ plan'.types, planned.layout.Throughout
      (StructLayout.DeterminedBy StructLayout.skeleton known) :=
    fun planned hm => (hknown _ (hsealed planned hm)).throughout
  obtain ⟨hfirst, hsecond⟩ := List.forall_mem_append.1 hall
  have hstep : ∀ registry, SchemaScope.Step ⟨registry, settings.bindings.maxTextureUnits⟩
      (StructLayout.DeterminedBy StructLayout.skeleton known) fun hash schema =>
        schema.skeleton = (known hash).outline settings.bindings.maxTextureUnits :=
    fun registry => outline_step known ⟨registry, settings.bindings.maxTextureUnits⟩
  obtain ⟨given₁, ha₁, hemitted⟩ := emitted_of_compile hstep reached.reached ids hplan hfirst h
  obtain ⟨given₂, ha₂, hemitted'⟩ := emitted_of_compile hstep reached'.reached ids' hplan' hsecond h'
  obtain rfl := Except.ok.inj (ha.symm.trans ha₁)
  obtain rfl := Except.ok.inj (ha'.symm.trans ha₂)
  exact sameTypes_of_matches hmatches hemitted hemitted'

/-- The workspace with a registry that knows nothing. -/
def Workspace.startOver (work : Workspace σ τ) (settings : Settings) (artifacts : τ) :
    Workspace σ τ where
  registry := { suffixLength := settings.registry.suffixLength }
  slots := work.slots
  artifacts := artifacts

/-- The digest tells apart what the registry has stored and what the unit declares. -/
def SourceUnit.ToldApart (unit : SourceUnit) (registry : Registry) : Prop :=
  ∀ contents shared resolution, unit.read.result = .ok (contents, shared) →
    (resolve registry unit.key (SourceUnit.declarations contents shared)).result = .ok resolution →
      NoCollision (registry.prints ++
        fingerprints (SourceUnit.declarations contents shared) resolution.hashes)

/-- A unit that can be planned over some registry has its fingerprints told apart. -/
theorem SourceUnit.ToldApart.exists_texts {unit : SourceUnit} {registry another : Registry}
    (h : unit.ToldApart registry) (own : unit.OwnNames) (all : unit.DeclaresAll) {plan : Plan}
    (hplan : (unit.plan another).result = .ok plan) :
    ∃ texts, NoCollision texts ∧ registry.prints ⊆ texts ∧ unit.PrintedIn texts := by
  obtain ⟨contents, shared, resolution, hread, hr, -⟩ := plan_eq_ok hplan
  have hu := all.selfContained own hread
  obtain ⟨found, hfound, -⟩ := resolve_over hu registry hr
  refine ⟨_, h _ _ _ hread hfound, List.subset_append_left _ _, ?_⟩
  intro third contents' shared' resolution' hread' hr'
  obtain ⟨rfl, rfl⟩ := Prod.mk.inj (Except.ok.inj (hread.symm.trans hread'))
  obtain ⟨other, hother, hhashes, -⟩ := resolve_over hu registry hr'
  obtain rfl := Except.ok.inj (hfound.symm.trans hother)
  rw [hhashes]
  exact List.subset_append_right _ _

/-- **Reuse.** A unit is compiled over a registry of the compiler if and only if it is compiled over a
fresh one, and it returns the same types then. -/
theorem compile_over_fresh {settings : Settings} {allocator : SlotAllocator σ}
    {sink : ArtifactSink τ} {unit : SourceUnit} {work : Workspace σ τ} (artifacts : τ)
    (reached : ReachedBy SourceUnit.OwnNames settings work.registry)
    (own : unit.OwnNames) (all : unit.DeclaresAll) (infallible : sink.Infallible)
    (ids : unit.FindsIds work.registry)
    (ids' : unit.FindsIds (work.startOver settings artifacts).registry)
    (distinct : unit.ToldApart work.registry) :
    ((∃ compiled, (compile settings allocator sink unit work).1.result = .ok compiled) ↔
      ∃ compiled, (compile settings allocator sink unit
        (work.startOver settings artifacts)).1.result = .ok compiled) ∧
    ∀ compiled compiled', (compile settings allocator sink unit work).1.result = .ok compiled →
      (compile settings allocator sink unit (work.startOver settings artifacts)).1.result =
        .ok compiled' →
      List.Forall₂ EmittedType.SameAs compiled.types compiled'.types := by
  have reached' : ReachedBy SourceUnit.OwnNames settings
      (work.startOver settings artifacts).registry := .fresh
  have hempty : ∀ texts, (work.startOver settings artifacts).registry.prints ⊆ texts :=
    fun texts => List.nil_subset texts
  have hforth : ∀ compiled, (compile settings allocator sink unit work).1.result = .ok compiled →
      ∃ compiled', (compile settings allocator sink unit
        (work.startOver settings artifacts)).1.result = .ok compiled' ∧
        List.Forall₂ EmittedType.SameAs compiled.types compiled'.types := by
    intro compiled h
    obtain ⟨plan, -, hplan, -⟩ := compile_eq_ok h
    obtain ⟨texts, hno, hprints, hunit⟩ := distinct.exists_texts own all hplan
    exact compile_over reached reached' own all infallible ids ids' rfl hno hprints (hempty texts)
      hunit h
  refine ⟨⟨?_, ?_⟩, ?_⟩
  · rintro ⟨compiled, h⟩
    obtain ⟨compiled', h', -⟩ := hforth compiled h
    exact ⟨compiled', h'⟩
  · rintro ⟨compiled, h⟩
    obtain ⟨plan, -, hplan, -⟩ := compile_eq_ok h
    obtain ⟨texts, hno, hprints, hunit⟩ := distinct.exists_texts own all hplan
    obtain ⟨compiled', h', -⟩ := compile_over reached' reached own all infallible ids' ids rfl hno
      (hempty texts) hprints hunit h
    exact ⟨compiled', h'⟩
  · intro compiled compiled' h h'
    obtain ⟨found, hfound, hsame⟩ := hforth compiled h
    obtain rfl := Except.ok.inj (h'.symm.trans hfound)
    exact hsame

/-! ## A struct that was generated under another name -/

/-- A struct. -/
def lampUnit : SourceUnit where
  key := "lamp.glsl"
  text := "struct Lamp\x7bfloat range;\x7d;"

/-- The workspace once `lamp.glsl` is compiled. -/
def lampWork : Workspace BindingPool Artifacts :=
  (compile {} BindingPool.allocator memorySink lampUnit freshWork).2

/-- The same struct under another name, and a block that uses it. -/
def stripUnit : SourceUnit where
  key := "strip.frag"
  text := "struct Bulb\x7bfloat range;\x7d;uniform Strip\x7bBulb bulbs[3];\x7d;"

theorem ownNames_of_read {unit : SourceUnit}
    (h : (unit.read.result.toOption.all fun found =>
      (found.2 ++ found.1.declarations).all fun decl =>
        (BaseType.ofName? decl.name).isNone) = true) : unit.OwnNames := by
  intro contents shared hread decl hm
  rw [hread] at h
  exact Option.isNone_iff_eq_none.1 (List.all_eq_true.1 h decl hm)

theorem declaresAll_of_read {unit : SourceUnit}
    (h : (unit.read.result.toOption.all fun found =>
      (SourceUnit.declarations found.1 found.2).all fun decl => decl.fields.all fun field =>
        field.baseType?.isSome ||
          (declared? (SourceUnit.declarations found.1 found.2) field.typeName).isSome) = true) :
    unit.DeclaresAll := by
  intro contents shared hread decl hm field hf hb
  rw [hread] at h
  have hfield := List.all_eq_true.1 (List.all_eq_true.1 h decl hm) field hf
  rwa [hb] at hfield

/-- The texts that have been digested once `strip.frag` is resolved. -/
def stripTexts : List String :=
  ["struct\nfloat range",
    "struct\nfloat range", "block:std140\nf472771549249615658e0b7b58ae5045875d286b bulbs[3]"]

/-- Once the unit is resolved, these texts have been digested. -/
def SourceUnit.digests (unit : SourceUnit) (registry : Registry) (texts : List String) : Bool :=
  unit.read.result.toOption.all fun found =>
    (resolve registry unit.key (SourceUnit.declarations found.1 found.2)).result.toOption.all
      fun resolution => decide (registry.prints ++
        fingerprints (SourceUnit.declarations found.1 found.2) resolution.hashes = texts)

theorem toldApart_of_texts {unit : SourceUnit} {registry : Registry} {texts : List String}
    (h : unit.digests registry texts = true) (hno : NoCollision texts) :
    unit.ToldApart registry := by
  intro contents shared resolution hread hr
  rw [SourceUnit.digests, hread] at h
  dsimp only [Except.toOption, Option.all_some] at h
  rw [hr] at h
  rw [of_decide_eq_true h]
  exact hno

theorem reachedBy_lampWork : ReachedBy SourceUnit.OwnNames {} lampWork.registry := by
  rw [lampWork]
  exact .compile BindingPool.allocator memorySink lampUnit freshWork .fresh
    (findsIds_of_plan (by decide +kernel)) (ownNames_of_read (by decide +kernel))

theorem infallible_memorySink : memorySink.Infallible := by
  rintro e ⟨key, text, kept, h⟩
  cases h

/-- The struct is taken from `lamp.glsl`, and it is as if it had been laid out for `strip.frag`. -/
theorem compile_over_fresh_strip :
    ReachedBy SourceUnit.OwnNames {} lampWork.registry ∧ stripUnit.ToldApart lampWork.registry ∧
      ∃ compiled compiled',
        (compile {} BindingPool.allocator memorySink stripUnit lampWork).1.result = .ok compiled ∧
        (compile {} BindingPool.allocator memorySink stripUnit
          (lampWork.startOver {} [])).1.result = .ok compiled' ∧
        compiled.generated = ["Strip"] ∧ compiled'.generated = ["Bulb", "Strip"] ∧
        List.Forall₂ EmittedType.SameAs compiled.types compiled'.types := by
  obtain ⟨htexts, hids, hids', hcompiled, hfresh⟩ :
      stripUnit.digests lampWork.registry stripTexts = true ∧
      stripUnit.findsFirstIds lampWork.registry = true ∧
      stripUnit.findsFirstIds (lampWork.startOver {} []).registry = true ∧
      (compile {} BindingPool.allocator memorySink stripUnit lampWork).1.result.toOption.any
        (fun compiled => decide (compiled.generated = ["Strip"])) = true ∧
      (compile {} BindingPool.allocator memorySink stripUnit
        (lampWork.startOver {} [])).1.result.toOption.any
          (fun compiled => decide (compiled.generated = ["Bulb", "Strip"])) = true := by
    decide +kernel
  have told := toldApart_of_texts htexts (by decide +kernel)
  obtain ⟨compiled, h, hgenerated⟩ := exists_ok_of_any hcompiled
  obtain ⟨compiled', h', hgenerated'⟩ := exists_ok_of_any hfresh
  refine ⟨reachedBy_lampWork, told, compiled, compiled', h, h', of_decide_eq_true hgenerated,
    of_decide_eq_true hgenerated', ?_⟩
  exact (compile_over_fresh [] reachedBy_lampWork (ownNames_of_read (by decide +kernel))
    (declaresAll_of_read (by decide +kernel)) infallible_memorySink
    (findsIds_of_plan hids) (findsIds_of_plan hids') told).2
    compiled compiled' h h'

end UniformLayout
