import UniformLayout.Proofs.Compilation.FieldNames
import UniformLayout.Proofs.Instance.Waiting

/-!
# Leaves of free uniforms

The set of a unit's free uniforms is instantiated for the host: it is attached, and its leaves have the
locations that the source gives them. A uniform of a value or sampler type that is declared with a
location takes everything of its type, in each of its elements. The leaves of a uniform without one,
however deep, refuse all writes until they are located. The location of a uniform of struct type stays
with the uniform, and the leaves below have none.

* `FieldSchema.HasLeaf`: the leaves at and below a field.
* `Reached.stores_locatedInSets`, `FieldSchema.HasLeaf.location_eq_none`: members have no locations.

Main statements: `uniform_leaves_of_compile` and `light_refuses`.
-/

namespace UniformLayout

variable {σ τ : Type}

/-- The schema of the instances that the elements hold. -/
def FieldKind.inner? : FieldKind → Option TypeSchema
  | .aggregate schema => some schema
  | _ => none

theorem FieldKind.inner?_eq_some {kind : FieldKind} {schema : TypeSchema} :
    kind.inner? = some schema ↔ kind = .aggregate schema := by
  cases kind <;> simp [inner?]

theorem FieldSchema.isLeaf_iff {field : FieldSchema} : field.IsLeaf ↔ field.kind.inner? = none := by
  rw [Option.eq_none_iff_forall_ne_some]
  exact forall_congr' fun inner => not_congr FieldKind.inner?_eq_some.symm

instance (field : FieldSchema) : Decidable field.IsLeaf :=
  decidable_of_iff _ FieldSchema.isLeaf_iff.symm

/-- An element of a leaf at or below the field, and the steps that lead there. -/
inductive FieldSchema.HasLeaf : FieldSchema → List PathStep → FieldSchema → Nat → Prop
  | own {field : FieldSchema} {element : Nat} (leaf : field.IsLeaf) (bound : element < field.length) :
      HasLeaf field [] field element
  | nested {field leaf : FieldSchema} {inner : TypeSchema} {element position : Nat}
      {path : List PathStep} (kind : field.kind = .aggregate inner) (bound : position < field.length)
      (below : inner.HasLeaf path leaf element) :
      HasLeaf field (⟨field.name, field.elementIndex position⟩ :: path) leaf element

section

variable {field leaf : FieldSchema} {path : List PathStep} {element : Nat}

theorem FieldSchema.HasLeaf.whole (h : field.HasLeaf path leaf element) {schema : TypeSchema}
    (hm : field ∈ schema.fields) : schema.HasLeaf path leaf element := by
  cases h with
  | own leaf bound => exact .own hm leaf bound
  | nested kind bound below => exact .nested hm kind bound below

/-- Without a step, the leaf is the field. -/
theorem FieldSchema.HasLeaf.eq_of_nil (h : field.HasLeaf [] leaf element) : leaf = field := by
  cases h
  rfl

end

/-! ## Members have no locations -/

/-- Outside of sets of free uniforms, fields have no locations. -/
def StructLayout.LocatedInSets (layout : StructLayout) : Prop :=
  layout.kind ≠ .uniformSet → ∀ field ∈ layout.fields, field.qualifiers.location = none

/-- A schema is built with the locations of its layout, on all levels. -/
theorem location_outsideSets_step (scope : SchemaScope) :
    scope.Step StructLayout.LocatedInSets fun _ schema =>
      schema.OutsideSets fun field => field.location = none := by
  intro layout identity units fields hl _ _ hfields
  refine TypeSchema.outsideSets_of_becomes (fun _ _ hr => hr) hfields fun hset => ?_
  have hkind : layout.kind ≠ .uniformSet := fun hk => by
    rw [TypeSchema.isUniformSet, hk] at hset
    cases hset
  refine forall_of_forall₂ hfields fun field hm schema hb => ?_
  rw [hb.location]
  exact hl hkind field hm

/-- Sources give locations to free uniforms only. -/
theorem locatedInSets_of_read {unit : SourceUnit} {contents : SourceContents}
    {shared : List TypeDeclaration} (hread : unit.read.result = .ok (contents, shared))
    {decl : TypeDeclaration} (hm : decl ∈ SourceUnit.declarations contents shared)
    (hk : decl.kind ≠ .uniformSet) : ∀ field ∈ decl.fields, field.qualifiers.location = none := by
  obtain ⟨-, hwritten, -⟩ := declarations_of_read hread
  intro field hf
  rcases List.mem_append.1 hm with hm | hset
  · rw [((hwritten decl hm).fields field hf).qualifiers]
  · exact absurd (uniformSet?_eq_some (Option.mem_toList.1 hset)).2 hk

/-- So the layouts that are made for a unit have locations in sets only. -/
theorem locatedInSets_fresh {unit : SourceUnit} {registry : Registry} {plan : Plan}
    (hplan : (unit.plan registry).result = .ok plan) :
    ∀ planned ∈ plan.types, planned.known = none → planned.layout.LocatedInSets := by
  obtain ⟨contents, shared, resolution, hread, hr, ht⟩ := plan_eq_ok hplan
  obtain ⟨distinct, handled, referenced, hc⟩ := resolve_eq_ok hr
  have htypes := hc.planned ht fun fresh => layOutAll_induction (I := fun _ => True)
    (P := fun _ layout => layout.LocatedInSets) (fun _ _ resolved hm layout hl => ?_) trivial
  · intro planned hm hknown
    obtain ⟨decl, -, hstands⟩ := exists_of_mem_right htypes hm
    exact PlannedType.StandsFor.layout hstands hknown
  · rw [hc.parts.1] at hm
    obtain ⟨decl, hd, -, rfl⟩ := mem_newTypes.1 hm
    refine ⟨fun hkind field hf => ?_, trivial⟩
    have hplace : (field.name, field.qualifiers.location) ∈ layout.locations :=
      List.mem_map_of_mem hf
    rw [locations_layOut hl] at hplace
    obtain ⟨member, hmember, he⟩ := List.mem_map.1 hplace
    rw [← (Prod.mk.inj he).2]
    exact locatedInSets_of_read hread (mem_of_declared (hc.first.mem_iff.1 (hc.perm.mem_iff.1 hd)))
      (kind_layOut hl ▸ hkind) member hmember

theorem locatedInSets_throughout {unit : SourceUnit} {registry : Registry}
    (hs : registry.Stores fun layout => layout.Throughout StructLayout.LocatedInSets) {plan : Plan}
    (hplan : (unit.plan registry).result = .ok plan) :
    ∀ planned ∈ plan.types, planned.layout.Throughout StructLayout.LocatedInSets := by
  obtain ⟨base, hsourced⟩ := plan_spec hplan
  exact hsourced.throughout (fun _ _ hd => hs.of_descriptorOfHash hd) (locatedInSets_fresh hplan)

/-- And so has whatever a compiler has stored. -/
theorem Reached.stores_locatedInSets {settings : Settings} {registry : Registry}
    (h : Reached settings registry) :
    registry.Stores fun layout => layout.Throughout StructLayout.LocatedInSets := by
  induction h with
  | fresh => exact Registry.stores_empty _
  | restore kept h ih => exact Registry.stores_restore ih h.settled.wellFormed kept
  | compile allocator sink unit work h ids ih =>
    exact stores_compile allocator sink h ids ih fun plan hplan planned hm _ =>
      locatedInSets_throughout ih hplan planned hm

theorem location_outsideSets_of_compile {settings : Settings} {allocator : SlotAllocator σ}
    {sink : ArtifactSink τ} {unit : SourceUnit} {work : Workspace σ τ} {compiled : CompiledUnit}
    (reached : Reached settings work.registry) (ids : unit.FindsIds work.registry)
    (h : (compile settings allocator sink unit work).1.result = .ok compiled) :
    ∀ emitted ∈ compiled.types, emitted.schema.OutsideSets fun field => field.location = none := by
  obtain ⟨plan, given, hplan, -⟩ := compile_eq_ok h
  obtain ⟨slots, -, hall⟩ := emitted_of_compile
    (fun registry => location_outsideSets_step ⟨registry, settings.bindings.maxTextureUnits⟩)
    reached ids hplan (locatedInSets_throughout reached.stores_locatedInSets hplan) h
  intro emitted hm
  obtain ⟨planned, -, hemitted⟩ := exists_of_mem_right hall hm
  exact hemitted.schema

/-- What holds of fields outside of sets holds of the leaves of a plain struct. -/
theorem TypeSchema.OutsideSets.leaf {p : FieldSchema → Prop} {schema : TypeSchema}
    {path : List PathStep} {leaf : FieldSchema} {element : Nat} (h : schema.OutsideSets p)
    (hk : schema.kind = .struct) (hs : schema.nestsStructs = true)
    (hleaf : schema.HasLeaf path leaf element) : p leaf := by
  induction hleaf with
  | @own schema field element mem _ _ =>
    obtain ⟨own, -⟩ := h
    have hset : schema.isUniformSet = false := by
      rw [isUniformSet, hk]
      rfl
    exact own hset field mem
  | @nested schema inner field _ _ _ _ mem kind _ _ ih =>
    obtain ⟨-, nested⟩ := h
    obtain ⟨hkind, hnests⟩ := schema.nestsStructs_inner hs field mem inner kind
    exact ih (nested field mem inner kind) hkind hnests

/-- The leaves of a field that holds plain structs have a location only if the field does. -/
theorem FieldSchema.HasLeaf.location_eq_none {schema : TypeSchema} {field leaf : FieldSchema}
    {path : List PathStep} {element : Nat} (h : field.HasLeaf path leaf element)
    (hs : schema.OutsideSets fun field => field.location = none) (hm : field ∈ schema.fields)
    (hnone : field.location = none) (hn : field.nestsStructs = true) : leaf.location = none := by
  cases h with
  | own _ _ => exact hnone
  | nested kind _ below =>
    obtain ⟨-, nested⟩ := hs
    obtain ⟨hkind, hnests⟩ := FieldSchema.nestsStructs_inner hn kind
    exact (nested field hm _ kind).leaf hkind hnests below

/-! ## Leaves of uniforms -/

/-- Whatever has been generated with the hash, at any depth, is a set of free uniforms with these
locations. -/
def Registry.KeepsSet (registry : Registry) (hash : String)
    (locations : List (String × Option Nat)) : Prop :=
  ∀ other descriptor, registry.descriptorOfHash? other = some descriptor →
    descriptor.layout.Throughout fun inner => inner.contentHash = hash →
      inner.kind = .uniformSet ∧ inner.locations = locations

/-- The schema of a set is that of a set, with its locations. -/
theorem set_step (hash : String) (locations : List (String × Option Nat)) (scope : SchemaScope) :
    scope.Step (fun layout => layout.contentHash = hash →
        layout.kind = .uniformSet ∧ layout.locations = locations)
      fun other schema => schema.Kinded ∧
        (other = hash → schema.kind = .uniformSet ∧ schema.locations = locations) := by
  rintro layout identity units fields hl - - hfields
  refine ⟨TypeSchema.kinded_of_becomes (fun _ _ => And.left) hfields, fun he => ?_⟩
  obtain ⟨hkind, hlocations⟩ := hl he
  exact ⟨hkind, (StructLayout.locations_of_becomes hfields).trans hlocations⟩

/-- **Leaves.** Take a new instance of the set of a unit's free uniforms, in which names differ on every
level, and any calls that do not locate a certain leaf of a uniform. If the uniform is itself the leaf
and is declared with a location, it takes everything of its type. If the uniform is declared without
one, the leaf refuses all writes; where a set is nested in the type of the uniform, this is said of the
leaves without a location only. Once it is located, the leaf takes everything of its type in any case.
All this holds as long as no other type of the unit has the hash of the set and whatever has been
generated with this hash is a set with the same locations. -/
theorem uniform_leaves_of_compile {settings : Settings} {allocator : SlotAllocator σ}
    {sink : ArtifactSink τ} {unit : SourceUnit} {work : Workspace σ τ} {compiled : CompiledUnit}
    {contents : SourceContents} {shared : List TypeDeclaration}
    (reached : Reached settings work.registry) (ids : unit.FindsIds work.registry)
    (read : unit.read.result = .ok (contents, shared)) (free : contents.uniforms ≠ [])
    (h : (compile settings allocator sink unit work).1.result = .ok compiled) :
    ∃ emitted, compiled.type? (uniformSetName unit.key) = some emitted ∧
      ((∀ other ∈ compiled.types, other.identity.contentHash = emitted.identity.contentHash →
          other.declaredName = emitted.declaredName) →
        work.registry.KeepsSet emitted.identity.contentHash contents.locations →
        emitted.schema.FieldsApart →
        ∀ uniform ∈ contents.uniforms, ∃ field ∈ emitted.schema.fields, field.name = uniform.name ∧
          ∀ path leaf element, field.HasLeaf path leaf element →
          ∀ calls, (∀ call ∈ calls, SiteCall.Spares path leaf.name call) →
            ∃ site, Site.run ⟨emitted.instantiate, []⟩ calls = site ∧
              (uniform.qualifiers.location.isSome → path = [] →
                site.inst.Takes path leaf element) ∧
              (uniform.qualifiers.location = none →
                field.nestsStructs = true ∨ leaf.location = none →
                site.inst.Refuses path leaf element) ∧
              ∀ place table, ∃ after,
                site.inst.updateAt ((InstanceCall.locate leaf.name place).apply table) path =
                  .ok (after, table) ∧ after.Takes path leaf element) := by
  obtain ⟨emitted, hfound, hset⟩ := exists_set_of_compile reached ids read free h
  refine ⟨emitted, hfound, fun hdistinct hkeeps hapart uniform hm => ?_⟩
  obtain ⟨hkinded, hsame⟩ := hset _ _ (fun registry => set_step emitted.identity.contentHash
    contents.locations ⟨registry, settings.bindings.maxTextureUnits⟩) hdistinct hkeeps
    fun _ hk hl => ⟨hk, hl⟩
  obtain ⟨hkind, hlocations⟩ := hsame rfl
  have hnew : emitted.instantiate = emitted.schema.instantiate.attach := by
    unfold EmittedType.instantiate
    rw [hkind]
  have hpair : (uniform.name, uniform.qualifiers.location) ∈ emitted.schema.locations := by
    rw [hlocations]
    exact List.mem_map_of_mem hm
  obtain ⟨field, hf, he⟩ := List.mem_map.1 hpair
  obtain ⟨hname, hlocation⟩ := Prod.mk.inj he
  refine ⟨field, hf, hname, fun path leaf element hleaf calls hs => ?_⟩
  have hwhole := hleaf.whole hf
  obtain ⟨site, hrun, hsound, hleafAt⟩ := hapart.hasLocation_run hkinded hwhole hs
  have hunlocated : uniform.qualifiers.location = none →
      field.nestsStructs = true ∨ leaf.location = none → leaf.location = none := by
    rintro hnone (hs | hleaf)
    · have houtside := location_outsideSets_of_compile reached ids h emitted
        (List.mem_of_find?_eq_some hfound)
      exact hleaf.location_eq_none houtside hf (hlocation.trans hnone) hs
    · exact hleaf
  refine ⟨site, hnew ▸ hrun, fun hsome hnil => ?_, fun hfree hnone => ?_, fun place table => ?_⟩
  · subst hnil
    obtain rfl := hleaf.eq_of_nil
    obtain ⟨place, hplace⟩ := Option.isSome_iff_exists.1 hsome
    rw [hlocation, hplace] at hleafAt
    exact hleafAt.takes hapart hwhole hsound.typed hsound.schema_eq
  · rw [hunlocated hfree hnone] at hleafAt
    exact hleafAt.refuses hapart hwhole hsound.typed hsound.schema_eq
  · obtain ⟨after, hafter, hlocated⟩ :=
      hleafAt.locate hapart hwhole hsound.typed hsound.schema_eq place table
    obtain ⟨htyped, hschema⟩ := StructInstance.typed_updateAt
      (fun _ _ _ ht hc => (InstanceCall.changes hc).typed ht) hsound.typed hafter
    exact ⟨after, hafter, hlocated.takes hapart hwhole htyped (hschema.trans hsound.schema_eq)⟩

theorem keepsSet_freshWork (hash : String) (locations : List (String × Option Nat)) :
    freshWork.registry.KeepsSet hash locations :=
  fun _ _ hd => (Registry.stores_empty 4).of_descriptorOfHash hd

theorem SourceContents.exists_uniform {contents : SourceContents} {name : String}
    {location : Option Nat} (h : (name, location) ∈ contents.locations) :
    ∃ uniform ∈ contents.uniforms, uniform.name = name ∧ uniform.qualifiers.location = location := by
  obtain ⟨uniform, hm, he⟩ := List.mem_map.1 h
  obtain ⟨hname, hlocation⟩ := Prod.mk.inj he
  exact ⟨uniform, hm, hname, hlocation⟩

/-! ## Lamps -/

/-- A gain with a location, and two lamps without one. -/
def sconceUnit : SourceUnit where
  key := "sconce.frag"
  text := "struct Lamp\x7bvec4 color;\x7d;layout(location=2)uniform float gain;uniform Lamp lamps[2];"

/-- The color of the first lamp is located, and the whole is cleaned. -/
def sconceCalls : List (List PathStep × SiteCall) :=
  [([⟨"lamps", some 0⟩], .on (.locate "color" 7)), ([], .setClean)]

theorem uniform_leaves_of_compile_sconce :
    ∃ contents shared compiled emitted,
      sconceUnit.read.result = .ok (contents, shared) ∧
      contents.locations = [("gain", some 2), ("lamps", none)] ∧
      (compile {} BindingPool.allocator memorySink sconceUnit freshWork).1.result = .ok compiled ∧
      compiled.type? (uniformSetName sconceUnit.key) = some emitted ∧
      (∃ gain ∈ emitted.schema.fields, gain.name = "gain" ∧
        (Site.run ⟨emitted.instantiate, []⟩ sconceCalls).inst.Takes [] gain 0) ∧
      ∃ color : FieldSchema, color.name = "color" ∧
        (Site.run ⟨emitted.instantiate, []⟩ sconceCalls).inst.Refuses [⟨"lamps", some 1⟩] color 0 := by
  obtain ⟨hids, hapart, hread, hcompiled⟩ : sconceUnit.findsFirstIds freshWork.registry = true ∧
      sconceUnit.read.result.toOption.all (fun found =>
        (SourceUnit.declarations found.1 found.2).all fun decl =>
          decide (decl.fields.map FieldDeclaration.name).Nodup) = true ∧
      sconceUnit.read.result.toOption.any (fun found =>
        decide (found.1.locations = [("gain", some 2), ("lamps", none)])) = true ∧
      (compile {} BindingPool.allocator memorySink sconceUnit
        freshWork).1.result.toOption.any (fun compiled =>
          (compiled.type? (uniformSetName sconceUnit.key)).any fun emitted =>
            (compiled.types.all fun other =>
              decide (other.identity.contentHash = emitted.identity.contentHash →
                other.declaredName = emitted.declaredName)) &&
            (emitted.schema.fields.all fun field =>
              decide (field.name = "gain" → field.IsLeaf ∧ 0 < field.length)) &&
            emitted.schema.fields.all fun field =>
              field.name != "lamps" || (field.kind.inner?.any fun inner =>
                decide (1 < field.length) && decide (field.elementIndex 1 = some 1) &&
                  field.nestsStructs && inner.fields.any fun color => color.name == "color" &&
                    decide color.IsLeaf && decide (0 < color.length))) = true := by
    decide +kernel
  obtain ⟨⟨contents, shared⟩, hread, hlocations⟩ := exists_ok_of_any hread
  obtain ⟨compiled, hok, hcompiled⟩ := exists_ok_of_any hcompiled
  obtain ⟨emitted, hfound, hcompiled⟩ := (Option.any_eq_true _ _).1 hcompiled
  simp only [Bool.and_eq_true, List.all_eq_true, decide_eq_true_eq] at hcompiled
  obtain ⟨⟨hdistinct, hgains⟩, hnested⟩ := hcompiled
  obtain ⟨hnames, -⟩ := fieldsApart_of_compile .fresh (findsIds_of_plan hids)
    (fieldsApart_of_read hapart) hok emitted (List.mem_of_find?_eq_some hfound)
  have hlocations := of_decide_eq_true hlocations
  obtain ⟨gain, hgain, hgainName, hgainLocation⟩ :=
    SourceContents.exists_uniform (show ("gain", some 2) ∈ contents.locations by simp [hlocations])
  obtain ⟨lamps, hlamps, hlampsName, hlampsLocation⟩ :=
    SourceContents.exists_uniform (show ("lamps", none) ∈ contents.locations by simp [hlocations])
  obtain ⟨other, hother, hleaves⟩ := uniform_leaves_of_compile .fresh (findsIds_of_plan hids) hread
    (List.ne_nil_of_mem hgain) hok
  obtain rfl := Option.some.inj (hfound.symm.trans hother)
  have hleaves := hleaves hdistinct (keepsSet_freshWork _ _) hnames
  refine ⟨contents, shared, compiled, emitted, hread, hlocations, hok, hfound, ?_, ?_⟩
  · obtain ⟨field, hf, hname, htakes⟩ := hleaves gain hgain
    have hfieldName := hname.trans hgainName
    obtain ⟨hleaf, hlt⟩ := hgains field hf hfieldName
    obtain ⟨site, rfl, htakes, -⟩ := htakes [] field 0 (.own hleaf hlt) sconceCalls (by
      simp [sconceCalls, SiteCall.Spares])
    exact ⟨field, hf, hfieldName, htakes (hgainLocation ▸ rfl) rfl⟩
  · obtain ⟨field, hf, hname, hrefuses⟩ := hleaves lamps hlamps
    have hfieldName := hname.trans hlampsName
    have hfield := hnested field hf
    rw [hfieldName, bne_self_eq_false, Bool.false_or] at hfield
    obtain ⟨inner, hinner, hfield⟩ := (Option.any_eq_true _ _).1 hfield
    simp only [Bool.and_eq_true, decide_eq_true_eq, List.any_eq_true, beq_iff_eq] at hfield
    obtain ⟨⟨⟨hlt, hindex⟩, hplain⟩, color, hcolor, ⟨hcolorName, hleaf⟩, hpos⟩ := hfield
    have hhas := FieldSchema.HasLeaf.nested (FieldKind.inner?_eq_some.1 hinner) hlt
      (.own hcolor hleaf hpos)
    rw [hfieldName, hindex] at hhas
    obtain ⟨site, rfl, -, hrefuses, -⟩ := hrefuses _ color 0 hhas sconceCalls (by
      simp [sconceCalls, SiteCall.Spares])
    exact ⟨color, hcolorName, hrefuses hlampsLocation (.inl hplain)⟩

/-! ## A located struct -/

/-- A light with a location. -/
def beaconUnit : SourceUnit where
  key := "beacon.frag"
  text := "struct Light\x7bvec4 color;\x7d;layout(location=2)uniform Light light;"

def whiteValue : UniformValue := ⟨.float, .vector 4, List.replicate 4 0x3f800000⟩

/-- The color of a light that is declared with a location refuses the color white. -/
theorem light_refuses :
    ∃ contents shared compiled emitted,
      beaconUnit.read.result = .ok (contents, shared) ∧ contents.locations = [("light", some 2)] ∧
      (compile {} BindingPool.allocator memorySink beaconUnit freshWork).1.result = .ok compiled ∧
      compiled.type? (uniformSetName beaconUnit.key) = some emitted ∧
      emitted.schema.locations = [("light", some 2)] ∧
      ∃ light ∈ emitted.schema.fields, ∃ color : FieldSchema,
        light.HasLeaf [⟨"light", none⟩] color 0 ∧ color.name = "color" ∧
        StructInstance.accepts color whiteValue = true ∧
        ∀ table, emitted.instantiate.updateAt
          ((InstanceCall.set "color" none whiteValue).apply table) [⟨"light", none⟩] =
            .error (.unlocatedField "color") := by
  obtain ⟨hids, hapart, hread, hcompiled⟩ : beaconUnit.findsFirstIds freshWork.registry = true ∧
      beaconUnit.read.result.toOption.all (fun found =>
        (SourceUnit.declarations found.1 found.2).all fun decl =>
          decide (decl.fields.map FieldDeclaration.name).Nodup) = true ∧
      beaconUnit.read.result.toOption.any (fun found =>
        decide (found.1.locations = [("light", some 2)])) = true ∧
      (compile {} BindingPool.allocator memorySink beaconUnit
        freshWork).1.result.toOption.any (fun compiled =>
          (compiled.type? (uniformSetName beaconUnit.key)).any fun emitted =>
            decide (emitted.schema.kind = .uniformSet) &&
            decide (emitted.schema.locations = [("light", some 2)]) &&
            emitted.schema.fields.any fun light => light.name == "light" &&
              decide (0 < light.length) && decide (light.elementIndex 0 = none) &&
              (light.kind.inner?.any fun inner => inner.fields.any fun color =>
                color.name == "color" && color.location.isNone && decide color.IsLeaf &&
                  decide (color.elementIndex 0 = none) && decide (0 < color.length) &&
                  StructInstance.accepts color whiteValue)) = true := by
    decide +kernel
  obtain ⟨⟨contents, shared⟩, hread, hlocations⟩ := exists_ok_of_any hread
  obtain ⟨compiled, hok, hcompiled⟩ := exists_ok_of_any hcompiled
  obtain ⟨emitted, hfound, hcompiled⟩ := (Option.any_eq_true _ _).1 hcompiled
  simp only [Bool.and_eq_true, decide_eq_true_eq, List.any_eq_true, beq_iff_eq] at hcompiled
  obtain ⟨⟨hkind, hkept⟩, light, hlight, ⟨⟨hname, hlt⟩, hindex⟩, hinner⟩ := hcompiled
  obtain ⟨inner, hinner, hcolors⟩ := (Option.any_eq_true _ _).1 hinner
  simp only [Bool.and_eq_true, decide_eq_true_eq, List.any_eq_true, beq_iff_eq,
    Option.isNone_iff_eq_none] at hcolors
  obtain ⟨color, hcolor, ⟨⟨⟨⟨hcolorName, hnone⟩, hleaf⟩, hwhole⟩, hpos⟩, haccepts⟩ := hcolors
  have hhas := FieldSchema.HasLeaf.nested (FieldKind.inner?_eq_some.1 hinner) hlt
    (.own hcolor hleaf hpos)
  rw [hname, hindex] at hhas
  refine ⟨contents, shared, compiled, emitted, hread, of_decide_eq_true hlocations, hok, hfound,
    hkept, light, hlight, color, hhas, hcolorName, haccepts, fun table => ?_⟩
  obtain ⟨hnames, hkinded⟩ := fieldsApart_of_compile .fresh (findsIds_of_plan hids)
    (fieldsApart_of_read hapart) hok emitted (List.mem_of_find?_eq_some hfound)
  have hplace := hnames.hasLocation hkinded (hhas.whole hlight)
  have hnew : emitted.instantiate = emitted.schema.instantiate.attach := by
    unfold EmittedType.instantiate
    rw [hkind]
  rw [hnone, ← hnew] at hplace
  have hsound := (Site.sound_new hkinded).run [([], .on .attach)]
  have hrefuses := (hplace.refuses hnames (hhas.whole hlight) (hnew ▸ hsound.typed)
    (hnew ▸ hsound.schema_eq)).value whiteValue haccepts table
  rwa [hcolorName, hwhole] at hrefuses

end UniformLayout
