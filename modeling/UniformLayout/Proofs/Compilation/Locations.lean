import UniformLayout.Proofs.Compilation.Emitted
import UniformLayout.Proofs.Compilation.Origin
import UniformLayout.Proofs.Schema.Regular
import UniformLayout.Proofs.Source.Names
import UniformLayout.Proofs.Source.Reading

/-!
# The locations of free uniforms

The content hash of a set of free uniforms covers their bindings and leaves out their locations, which
its schema and its host type hold as well. A set whose hash has been generated is therefore returned
with the locations of the unit that came first; they are those of its own source where the two units
agree.

Main statements: `locations_of_compile` and `gain_misplaced`.
-/

namespace UniformLayout

variable {σ τ : Type}

/-- The fields with the locations that they are given. -/
def StructLayout.locations (layout : StructLayout) : List (String × Option Nat) :=
  layout.fields.map fun field => (field.name, field.qualifiers.location)

def TypeSchema.locations (schema : TypeSchema) : List (String × Option Nat) :=
  schema.fields.map fun field => (field.name, field.location)

/-- The free uniforms with the locations that the source declares. -/
def SourceContents.locations (contents : SourceContents) : List (String × Option Nat) :=
  contents.uniforms.map fun uniform => (uniform.name, uniform.qualifiers.location)

/-- Whatever has been generated with the hash, at any depth, has these locations. -/
def Registry.KeepsLocations (registry : Registry) (hash : String)
    (locations : List (String × Option Nat)) : Prop :=
  ∀ other descriptor, registry.descriptorOfHash? other = some descriptor →
    descriptor.layout.Throughout fun inner =>
      inner.contentHash = hash → inner.locations = locations

/-! ## Layouts and schemas -/

/-- A layout that is made keeps the locations of its declaration. -/
theorem locations_layOut {decl : TypeDeclaration} {contentHash : String} {nested : LayoutTable}
    {layout : StructLayout} (h : decl.layOut contentHash nested = .ok layout) :
    layout.locations = decl.fields.map fun field => (field.name, field.qualifiers.location) := by
  obtain ⟨fields, size, hf, -, rfl⟩ := layOut_eq_ok h
  refine map_eq_of_forall₂ (layOutFields_shapes hf) fun field _ placed hp => ?_
  rw [hp.1, hp.2.1]

theorem kind_layOut {decl : TypeDeclaration} {contentHash : String} {nested : LayoutTable}
    {layout : StructLayout} (h : decl.layOut contentHash nested = .ok layout) :
    layout.kind = decl.kind := by
  obtain ⟨fields, size, -, -, rfl⟩ := layOut_eq_ok h
  rfl

/-- A schema is built with the locations of its layout. -/
theorem StructLayout.locations_of_becomes {R : StructLayout → TypeSchema → Prop}
    {units : Table String Nat} {layout : StructLayout} {fields : List FieldSchema}
    (h : List.Forall₂ (FieldLayout.Becomes R units) layout.fields fields) :
    (fields.map fun field => (field.name, field.location)) = layout.locations :=
  map_eq_of_forall₂ h fun field _ schema hb => by rw [hb.name, hb.location]

theorem locations_step (hash : String) (locations : List (String × Option Nat))
    (scope : SchemaScope) :
    scope.Step (fun layout => layout.contentHash = hash → layout.locations = locations)
      fun other schema => other = hash → schema.locations = locations :=
  fun _ _ _ _ hl _ _ hfields he => (StructLayout.locations_of_becomes hfields).trans (hl he)

/-! ## The set of a unit -/

/-- The set of a unit is not dropped as a copy of another declaration. -/
theorem mem_deduplicate_uniformSet {unit : SourceUnit} {contents : SourceContents}
    {shared distinct : List TypeDeclaration} {set : TypeDeclaration}
    (hread : unit.read.result = .ok (contents, shared))
    (hset : uniformSet? contents.key contents.uniforms = some set) {key : String}
    (hd : (deduplicate key (SourceUnit.declarations contents shared)).result = .ok distinct) :
    set ∈ distinct := by
  obtain ⟨-, hwritten, -⟩ := declarations_of_read hread
  have hmem : set ∈ SourceUnit.declarations contents shared :=
    List.mem_append_right _ (Option.mem_toList.2 hset)
  obtain ⟨kept, hk, -, hs⟩ := exists_mem_deduplicate hd set hmem
  have htag := (sameShape_iff.1 hs).1
  have hkind : kept.kind = .uniformSet := by
    rw [tag_eq_iff, (uniformSet?_eq_some hset).2] at htag
    generalize kept.kind = kind at htag
    cases kind with
    | struct => cases htag
    | uniformBlock slot name packing => cases htag
    | uniformSet => rfl
  have hdecl := mem_of_declared ((deduplicate_spec hd).mem_iff.1 hk)
  rcases List.mem_append.1 hdecl with hother | hself
  · exact absurd hkind (hwritten kept hother).kind
  · obtain rfl := Option.some.inj (hset.symm.trans (Option.mem_toList.1 hself))
    exact hk

/-- The type of a plan that stands for the set of the unit, and its hash. A layout that is made for it is
that of a set and has the locations of the source. -/
theorem exists_planned_uniformSet {unit : SourceUnit} {registry : Registry} {limit : Nat}
    (hs : registry.Settled limit) {contents : SourceContents} {shared : List TypeDeclaration}
    (hread : unit.read.result = .ok (contents, shared)) (hfree : contents.uniforms ≠ [])
    {plan : Plan} (hplan : (unit.plan registry).result = .ok plan) :
    (plan.types.map PlannedType.name).Nodup ∧
      ∃ planned ∈ plan.types, planned.name = uniformSetName unit.key ∧
        planned.layout.contentHash = planned.contentHash ∧
        (planned.known = none → planned.layout.kind = .uniformSet ∧
          planned.layout.locations = contents.locations) := by
  obtain ⟨contents', shared', resolution, hread', hr, ht⟩ := plan_eq_ok hplan
  obtain ⟨rfl, rfl⟩ := Prod.mk.inj (Except.ok.inj (hread.symm.trans hread'))
  obtain ⟨distinct, referenced, hd, -, -⟩ := resolve_eq_ok_iff.1 hr
  obtain ⟨distinct', handled, referenced', hc⟩ := resolve_eq_ok hr
  have hset : ∃ set, uniformSet? contents.key contents.uniforms = some set := by
    cases hu : uniformSet? contents.key contents.uniforms with
    | none => exact absurd (uniformSet?_eq_none_iff.1 hu) hfree
    | some set => exact ⟨set, rfl⟩
  obtain ⟨set, hset⟩ := hset
  have hhandled : set ∈ handled := by
    have hdeclared := (deduplicate_spec hd).mem_iff.1 (mem_deduplicate_uniformSet hread hset hd)
    exact hc.perm.mem_iff.2 (hc.first.mem_iff.2 hdeclared)
  have htypes := hc.planned ht fun fresh => layOutAll_induction (I := fun _ => True)
    (P := fun resolved layout => layout.contentHash = resolved.contentHash ∧
      layout.kind = resolved.declaration.kind ∧ layout.locations =
        resolved.declaration.fields.map fun field => (field.name, field.qualifiers.location))
    (fun _ _ resolved _ layout hl =>
      ⟨⟨(layOut_drawsOn hl).1, kind_layOut hl, locations_layOut hl⟩, trivial⟩)
    trivial
  have hnames : plan.types.map PlannedType.name = handled.map TypeDeclaration.name :=
    map_eq_of_forall₂ htypes fun decl _ planned hp => congrArg TypeDeclaration.name hp.declaration
  refine ⟨hnames ▸ hc.names_nodup, ?_⟩
  obtain ⟨planned, hm, hp⟩ := exists_of_mem_left htypes hhandled
  refine ⟨planned, hm, ?_, ?_⟩
  · rw [PlannedType.name, hp.declaration, (uniformSet?_eq_some hset).1,
      (declarations_of_read hread).1]
  · rcases hp with ⟨descriptor, hdescriptor, rfl⟩ | ⟨-, hnew⟩
    · have husable := hs.usable hdescriptor
      exact ⟨husable.hash, fun hknown => by cases hknown⟩
    · obtain ⟨hhash, hkind, hlocations⟩ := hnew.layout
      refine ⟨hhash.trans hnew.contentHash.symm, fun _ =>
        ⟨hkind.trans (uniformSet?_eq_some hset).2, hlocations.trans ?_⟩⟩
      rw [uniformSet?_fields hset, List.map_map]
      rfl

/-- A unit with free uniforms returns their set. If no other type of the unit has its hash, and whatever
has been generated with this hash is as the layout of the set, then so is its schema. -/
theorem exists_set_of_compile {settings : Settings} {allocator : SlotAllocator σ}
    {sink : ArtifactSink τ} {unit : SourceUnit} {work : Workspace σ τ} {compiled : CompiledUnit}
    {contents : SourceContents} {shared : List TypeDeclaration}
    (reached : Reached settings work.registry) (ids : unit.FindsIds work.registry)
    (read : unit.read.result = .ok (contents, shared)) (free : contents.uniforms ≠ [])
    (h : (compile settings allocator sink unit work).1.result = .ok compiled) :
    ∃ emitted, compiled.type? (uniformSetName unit.key) = some emitted ∧
      ∀ (P : StructLayout → Prop) (Q : String → TypeSchema → Prop),
        (∀ registry, SchemaScope.Step ⟨registry, settings.bindings.maxTextureUnits⟩
          (fun layout => layout.contentHash = emitted.identity.contentHash → P layout) Q) →
        (∀ other ∈ compiled.types, other.identity.contentHash = emitted.identity.contentHash →
          other.declaredName = emitted.declaredName) →
        (∀ other descriptor, work.registry.descriptorOfHash? other = some descriptor →
          descriptor.layout.Throughout fun inner =>
            inner.contentHash = emitted.identity.contentHash → P inner) →
        (∀ layout : StructLayout, layout.kind = .uniformSet →
          layout.locations = contents.locations → P layout) →
        Q emitted.identity.contentHash emitted.schema := by
  obtain ⟨plan, -, hplan, -⟩ := compile_eq_ok h
  obtain ⟨base, hsourced⟩ := plan_spec hplan
  obtain ⟨hnodup, planned, hm, hname, hhash, hown⟩ :=
    exists_planned_uniformSet reached.settled read free hplan
  obtain ⟨given, -, hall⟩ := emittedAs_of_compile reached ids hplan h
  obtain ⟨emitted, hemitted, he⟩ := exists_of_mem_left hall hm
  refine ⟨emitted, hname ▸ type?_of_emitted hall hnodup hemitted he,
    fun P Q hstep hdistinct hkeeps hset => ?_⟩
  rw [he.identity] at hstep hdistinct hkeeps ⊢
  -- A layout that is made and has the hash is the one of the set.
  have hfresh : ∀ other ∈ plan.types, other.known = none →
      other.layout.contentHash = planned.contentHash → P other.layout := by
    intro other ho hnone hother
    obtain ⟨result, hr, hresult⟩ := exists_of_mem_left hall ho
    have hsame : other.contentHash = planned.contentHash := by
      rcases hsourced.each other ho with hnew | ⟨descriptor, hash, hknown, -⟩
      · rw [← hnew.contentHash, hother]
      · rw [hnone] at hknown
        cases hknown
    have hdeclared := hdistinct result hr (hresult.identity.trans hsame)
    rw [hresult.name, he.name] at hdeclared
    obtain rfl := List.inj_on_of_nodup_map hnodup ho hm hdeclared
    obtain ⟨hkind, hlocations⟩ := hown hnone
    exact hset _ hkind hlocations
  obtain ⟨_, -, hplaced⟩ :=
    emitted_of_compile hstep reached ids hplan (hsourced.throughout hkeeps hfresh) h
  obtain ⟨other, ho, hplaced⟩ := exists_of_mem_right hplaced hemitted
  have hsame : other.name = planned.name := hplaced.name.symm.trans he.name
  obtain rfl := List.inj_on_of_nodup_map hnodup ho hm hsame
  exact hhash ▸ hplaced.schema

/-- **Locations.** The set of a unit's free uniforms is returned with the locations that the unit
declares, as long as no other type of the unit has its hash and whatever has been generated with this
hash has the same locations. -/
theorem locations_of_compile {settings : Settings} {allocator : SlotAllocator σ}
    {sink : ArtifactSink τ} {unit : SourceUnit} {work : Workspace σ τ} {compiled : CompiledUnit}
    {contents : SourceContents} {shared : List TypeDeclaration}
    (reached : Reached settings work.registry) (ids : unit.FindsIds work.registry)
    (read : unit.read.result = .ok (contents, shared)) (free : contents.uniforms ≠ [])
    (h : (compile settings allocator sink unit work).1.result = .ok compiled) :
    ∃ emitted, compiled.type? (uniformSetName unit.key) = some emitted ∧
      ((∀ other ∈ compiled.types, other.identity.contentHash = emitted.identity.contentHash →
          other.declaredName = emitted.declaredName) →
        work.registry.KeepsLocations emitted.identity.contentHash contents.locations →
        emitted.schema.locations = contents.locations) := by
  obtain ⟨emitted, hfound, hset⟩ := exists_set_of_compile reached ids read free h
  refine ⟨emitted, hfound, fun hdistinct hkeeps => ?_⟩
  exact hset _ _ (fun registry => locations_step emitted.identity.contentHash contents.locations
    ⟨registry, settings.bindings.maxTextureUnits⟩) hdistinct hkeeps (fun _ _ hl => hl) rfl

/-! ## One hash for two locations -/

/-- A source with one free uniform. -/
def bloomUnit : SourceUnit where
  key := "bloom.frag"
  text := "layout(location=3)uniform float gain;"

/-- The workspace once `bloom.frag` is compiled. -/
def bloomWork : Workspace BindingPool Artifacts :=
  (compile {} BindingPool.allocator memorySink bloomUnit freshWork).2

theorem reached_bloomWork : Reached {} bloomWork.registry := by
  rw [bloomWork]
  exact .compile BindingPool.allocator memorySink bloomUnit freshWork .fresh
    (findsIds_of_plan (by decide +kernel))

def FieldShape.isBase : FieldShape → Bool
  | .base _ => true
  | .aggregate _ => false

/-- A registry without nested layouts keeps locations if all its records do. -/
theorem keepsLocations_of_records {registry : Registry} {locations : List (String × Option Nat)}
    (h : (registry.records.all fun record => record.descriptor.all fun descriptor =>
      (descriptor.layout.fields.all (·.shape.isBase)) &&
        decide (descriptor.layout.locations = locations)) = true) (hash : String) :
    registry.KeepsLocations hash locations := by
  intro other descriptor hd
  unfold Registry.descriptorOfHash? Registry.ofHash? Registry.recordAt? at hd
  obtain ⟨record, hr, hd⟩ := Option.bind_eq_some_iff.1 hd
  obtain ⟨index, -, hr⟩ := Option.bind_eq_some_iff.1 hr
  have hrecord := List.all_eq_true.1 h record (List.mem_of_getElem? hr)
  rw [hd, Option.all_some, Bool.and_eq_true, List.all_eq_true] at hrecord
  obtain ⟨hbase, hlocations⟩ := hrecord
  refine .intro (fun _ => of_decide_eq_true hlocations) fun field hm inner hs => ?_
  have := hbase field hm
  rw [hs] at this
  cases this

/-- The same uniform of another source. -/
def glareUnit : SourceUnit where
  key := "glare.frag"
  text := "layout(location=3)uniform float gain;"

theorem locations_of_compile_glare :
    ∃ compiled emitted,
      (compile {} BindingPool.allocator memorySink glareUnit bloomWork).1.result = .ok compiled ∧
        compiled.type? (uniformSetName glareUnit.key) = some emitted ∧ compiled.generated = [] ∧
        emitted.schema.locations = [("gain", some 3)] := by
  obtain ⟨hids, hread, hcompiled, hrecords⟩ : glareUnit.findsFirstIds bloomWork.registry = true ∧
      glareUnit.read.result.toOption.any (fun found =>
        decide (found.1.locations = [("gain", some 3)])) = true ∧
      (compile {} BindingPool.allocator memorySink glareUnit
        bloomWork).1.result.toOption.any (fun compiled => decide (compiled.generated = []) &&
          compiled.types.all (·.declaredName == uniformSetName glareUnit.key)) = true ∧
      (bloomWork.registry.records.all fun record => record.descriptor.all fun descriptor =>
        (descriptor.layout.fields.all (·.shape.isBase)) &&
          decide (descriptor.layout.locations = [("gain", some 3)])) = true := by
    decide +kernel
  obtain ⟨⟨contents, shared⟩, hread, hlocations⟩ := exists_ok_of_any hread
  obtain ⟨compiled, hok, hcompiled⟩ := exists_ok_of_any hcompiled
  obtain ⟨hgenerated, hall⟩ := Bool.and_eq_true_iff.1 hcompiled
  have hlocations := of_decide_eq_true hlocations
  have hname : ∀ other ∈ compiled.types, other.declaredName = uniformSetName glareUnit.key :=
    fun other hm => eq_of_beq (List.all_eq_true.1 hall other hm)
  have hfree : contents.uniforms ≠ [] := by
    intro hnil
    unfold SourceContents.locations at hlocations
    rw [hnil] at hlocations
    cases hlocations
  obtain ⟨emitted, hfound, hplaced⟩ :=
    locations_of_compile reached_bloomWork (findsIds_of_plan hids) hread hfree hok
  refine ⟨compiled, emitted, hok, hfound, of_decide_eq_true hgenerated, ?_⟩
  rw [← hlocations]
  refine hplaced (fun other ho _ => ?_) (keepsLocations_of_records ?_ _)
  · exact (hname other ho).trans (hname emitted (List.mem_of_find?_eq_some hfound)).symm
  · rw [hlocations]
    exact hrecords

/-- The same uniform in another location. -/
def flareUnit : SourceUnit where
  key := "flare.frag"
  text := "layout(location=5)uniform float gain;"

/-- The set of `flare.frag` is returned with the location that `bloom.frag` declares. -/
theorem gain_misplaced :
    Reached {} bloomWork.registry ∧
      ∃ contents compiled emitted,
        (SourceContents.read flareUnit.key flareUnit.text).result = .ok contents ∧
        (compile {} BindingPool.allocator memorySink flareUnit bloomWork).1.result =
          .ok compiled ∧
        compiled.type? (uniformSetName flareUnit.key) = some emitted ∧
        emitted.schema.kind = .uniformSet ∧ contents.locations = [("gain", some 5)] ∧
        emitted.schema.locations = [("gain", some 3)] := by
  refine ⟨reached_bloomWork, ?_⟩
  obtain ⟨hread, hcompiled⟩ :
      (SourceContents.read flareUnit.key flareUnit.text).result.toOption.any (fun contents =>
        decide (contents.locations = [("gain", some 5)])) = true ∧
      (compile {} BindingPool.allocator memorySink flareUnit
        bloomWork).1.result.toOption.any (fun compiled =>
          (compiled.type? (uniformSetName flareUnit.key)).any fun emitted =>
            decide (emitted.schema.kind = .uniformSet) &&
              decide (emitted.schema.locations = [("gain", some 3)])) = true := by
    decide +kernel
  obtain ⟨contents, hc, hlocations⟩ := exists_ok_of_any hread
  obtain ⟨compiled, hok, hcompiled⟩ := exists_ok_of_any hcompiled
  obtain ⟨emitted, he, hcompiled⟩ := (Option.any_eq_true _ _).1 hcompiled
  obtain ⟨hkind, hfound⟩ := Bool.and_eq_true_iff.1 hcompiled
  exact ⟨contents, compiled, emitted, hc, hok, he, of_decide_eq_true hkind,
    of_decide_eq_true hlocations, of_decide_eq_true hfound⟩

end UniformLayout
