import UniformLayout.Proofs.Compilation.Locations
import UniformLayout.Proofs.Compilation.Stored
import UniformLayout.Proofs.Instance.Naming

/-!
# The names of the fields of compiled types

No stage looks at repeated names of fields, so the fields of a compiled type have different names as
far as those of its source have. Layouts keep the names of their declarations, and so does whatever a
registry has stored.

* `StructLayout.NamesApart`, `fieldsApart_step`: names of layouts and of schemas.
* `ReachedBy.stores_namesApart`: the layouts of a registry.

Main statements: `leaves_of_compile` and `gain_hides_gain`.
-/

namespace UniformLayout

variable {σ τ : Type}

/-! ## Layouts and schemas -/

/-- The names of the fields differ. -/
def StructLayout.NamesApart (layout : StructLayout) : Prop :=
  (layout.fields.map FieldLayout.name).Nodup

/-- A layout that is made keeps the names of its declaration. -/
theorem names_layOut {decl : TypeDeclaration} {contentHash : String} {nested : LayoutTable}
    {layout : StructLayout} (h : decl.layOut contentHash nested = .ok layout) :
    layout.fields.map FieldLayout.name = decl.fields.map FieldDeclaration.name := by
  have hnames := congrArg (List.map Prod.fst) (locations_layOut h)
  rw [StructLayout.locations, List.map_map, List.map_map] at hnames
  exact hnames

/-- A schema is built with the names of its layout. -/
theorem fieldsApart_step (scope : SchemaScope) :
    scope.Step StructLayout.NamesApart fun _ schema => schema.FieldsApart ∧ schema.Kinded := by
  intro layout identity units fields hn _ _ hfields
  have hnested : ∀ field ∈ fields, ∀ inner, field.kind = .aggregate inner → inner.FieldsApart := by
    refine forall_of_forall₂ hfields fun field _ schema hb => ?_
    have hkind := hb.kind
    generalize field.shape = shape at hkind
    generalize schema.kind = kind at hkind
    cases hkind with
    | handle handle => exact nofun
    | value type hv => exact nofun
    | aggregate hbuilt => exact fun inner he => FieldKind.aggregate.inj he ▸ hbuilt.1
  refine ⟨.intro ?_ hnested, TypeSchema.kinded_of_becomes (fun _ _ => And.right) hfields⟩
  have hnames : fields.map FieldSchema.name = layout.fields.map FieldLayout.name :=
    map_eq_of_forall₂ hfields fun _ _ _ hb => hb.name
  exact hnames ▸ hn

/-! ## Sources -/

/-- In each declaration of the unit, its set of free uniforms included, the names of the fields
differ. -/
def SourceUnit.FieldsApart (unit : SourceUnit) : Prop :=
  ∀ contents shared, unit.read.result = .ok (contents, shared) →
    ∀ decl ∈ SourceUnit.declarations contents shared, (decl.fields.map FieldDeclaration.name).Nodup

theorem fieldsApart_of_read {unit : SourceUnit} (h : unit.read.result.toOption.all (fun found =>
    (SourceUnit.declarations found.1 found.2).all fun decl =>
      decide (decl.fields.map FieldDeclaration.name).Nodup) = true) : unit.FieldsApart := by
  intro contents shared hr decl hm
  rw [hr] at h
  exact of_decide_eq_true (List.all_eq_true.1 h decl hm)

/-- The layouts that are made for a unit keep the names apart. -/
theorem SourceUnit.FieldsApart.fresh {unit : SourceUnit} (h : unit.FieldsApart) {registry : Registry}
    {plan : Plan} (hplan : (unit.plan registry).result = .ok plan) :
    ∀ planned ∈ plan.types, planned.known = none → planned.layout.NamesApart := by
  obtain ⟨contents, shared, resolution, hread, hr, ht⟩ := plan_eq_ok hplan
  obtain ⟨distinct, handled, referenced, hc⟩ := resolve_eq_ok hr
  have htypes := hc.planned ht fun fresh => layOutAll_induction (I := fun _ => True)
    (P := fun _ layout => layout.NamesApart) (fun _ _ resolved hm layout hl => ?_) trivial
  · intro planned hm hknown
    obtain ⟨decl, -, hstands⟩ := exists_of_mem_right htypes hm
    exact PlannedType.StandsFor.layout hstands hknown
  · rw [hc.parts.1] at hm
    obtain ⟨decl, hd, -, rfl⟩ := mem_newTypes.1 hm
    refine ⟨?_, trivial⟩
    rw [StructLayout.NamesApart, names_layOut hl]
    exact h contents shared hread decl
      (mem_of_declared (hc.first.mem_iff.1 (hc.perm.mem_iff.1 hd)))

/-- The layouts of a plan keep the names apart, where the registry does. -/
theorem SourceUnit.FieldsApart.throughout {unit : SourceUnit} (h : unit.FieldsApart)
    {registry : Registry} (hs : registry.Stores fun layout => layout.Throughout StructLayout.NamesApart)
    {plan : Plan} (hplan : (unit.plan registry).result = .ok plan) :
    ∀ planned ∈ plan.types, planned.layout.Throughout StructLayout.NamesApart := by
  obtain ⟨base, hsourced⟩ := plan_spec hplan
  exact hsourced.throughout (fun _ _ hd => hs.of_descriptorOfHash hd) (h.fresh hplan)

/-- Whatever such a compiler has stored keeps the names apart, on every level. -/
theorem ReachedBy.stores_namesApart {settings : Settings} {registry : Registry}
    (h : ReachedBy SourceUnit.FieldsApart settings registry) :
    registry.Stores fun layout => layout.Throughout StructLayout.NamesApart := by
  induction h with
  | fresh => exact Registry.stores_empty _
  | restore kept h ih => exact Registry.stores_restore ih h.reached.settled.wellFormed kept
  | compile allocator sink unit work h ids hapart ih =>
    exact stores_compile allocator sink h.reached ids ih fun plan hplan planned hm _ =>
      hapart.throughout ih hplan planned hm

/-! ## What a unit returns -/

/-- The schemas that such a compiler returns keep the names apart as well. -/
theorem fieldsApart_of_compile {settings : Settings} {allocator : SlotAllocator σ}
    {sink : ArtifactSink τ} {unit : SourceUnit} {work : Workspace σ τ} {compiled : CompiledUnit}
    (reached : ReachedBy SourceUnit.FieldsApart settings work.registry)
    (ids : unit.FindsIds work.registry) (apart : unit.FieldsApart)
    (h : (compile settings allocator sink unit work).1.result = .ok compiled) :
    ∀ emitted ∈ compiled.types, emitted.schema.FieldsApart ∧ emitted.schema.Kinded := by
  obtain ⟨plan, given, hplan, -⟩ := compile_eq_ok h
  obtain ⟨slots, -, hall⟩ := emitted_of_compile
    (fun registry => fieldsApart_step ⟨registry, settings.bindings.maxTextureUnits⟩)
    reached.reached ids hplan (apart.throughout reached.stores_namesApart hplan) h
  intro emitted hm
  obtain ⟨planned, -, hemitted⟩ := exists_of_mem_right hall hm
  exact hemitted.schema

/-- **Names.** If the sources that a compiler has seen never repeat the name of a field, then in every
type that it returns each field is the one that its name finds, and every element of every leaf has a
path to it. It takes everything of its type, unless the instance at the end of the path is attached and
the leaf has no location there. -/
theorem leaves_of_compile {settings : Settings} {allocator : SlotAllocator σ} {sink : ArtifactSink τ}
    {unit : SourceUnit} {work : Workspace σ τ} {compiled : CompiledUnit}
    (reached : ReachedBy SourceUnit.FieldsApart settings work.registry)
    (ids : unit.FindsIds work.registry) (apart : unit.FieldsApart)
    (h : (compile settings allocator sink unit work).1.result = .ok compiled) :
    ∀ emitted ∈ compiled.types,
      (emitted.schema.fields.map FieldSchema.name).Nodup ∧
      (∀ (index : Nat) (field : FieldSchema), emitted.schema.fields[index]? = some field →
        emitted.schema.fieldIndex? field.name = some index) ∧
      ∀ inst, emitted.schema.Reaches inst → ∀ path leaf element,
        emitted.schema.HasLeaf path leaf element →
          ∃ child view, inst.descend path = .ok child ∧ child.lookup leaf.name = .ok view ∧
            view.schema = leaf ∧
            (child.checkLocated view = .ok () → inst.Takes path leaf element) := by
  intro emitted hm
  obtain ⟨hapart, hkinded⟩ := fieldsApart_of_compile reached ids apart h emitted hm
  have hnames : (emitted.schema.fields.map FieldSchema.name).Nodup := by
    cases hapart with
    | intro names nested => exact names
  exact ⟨hnames, emitted.schema.found_iff.2 hnames, fun inst hr path leaf element =>
    hapart.takes_leaf hkinded hr⟩

/-- Lamps in an array, and two masks. -/
def lanternUnit : SourceUnit where
  key := "lantern.frag"
  text := "struct Lamp\x7bvec4 color;float reach;\x7d;uniform Lamp lamps[2];uniform sampler2D masks[2];"

theorem leaves_of_compile_lantern :
    ReachedBy SourceUnit.FieldsApart {} freshWork.registry ∧ lanternUnit.FieldsApart ∧
      ∃ compiled emitted leaf,
        (compile {} BindingPool.allocator memorySink lanternUnit freshWork).1.result = .ok compiled ∧
        compiled.type? "LanternUniforms" = some emitted ∧
        emitted.schema.field? "masks" = some leaf ∧ emitted.schema.HasLeaf [] leaf 1 ∧
        emitted.schema.instantiate.Takes [] leaf 1 := by
  obtain ⟨hids, hread, hcompiled⟩ : lanternUnit.findsFirstIds freshWork.registry = true ∧
      lanternUnit.read.result.toOption.all (fun found =>
        (SourceUnit.declarations found.1 found.2).all fun decl =>
          decide (decl.fields.map FieldDeclaration.name).Nodup) = true ∧
      (compile {} BindingPool.allocator memorySink lanternUnit
        freshWork).1.result.toOption.any (fun compiled =>
          (compiled.type? "LanternUniforms").any fun emitted =>
            (emitted.schema.field? "masks").any fun leaf =>
              decide (1 < leaf.length) && leaf.kind.target?.isSome) = true := by
    decide +kernel
  have hapart : lanternUnit.FieldsApart := fieldsApart_of_read hread
  obtain ⟨compiled, hok, hcompiled⟩ := exists_ok_of_any hcompiled
  obtain ⟨emitted, he, hcompiled⟩ := (Option.any_eq_true _ _).1 hcompiled
  obtain ⟨leaf, hleaf, hcompiled⟩ := (Option.any_eq_true _ _).1 hcompiled
  obtain ⟨hlt, htarget⟩ := Bool.and_eq_true_iff.1 hcompiled
  have hhas : emitted.schema.HasLeaf [] leaf 1 := by
    refine .own (List.mem_of_find?_eq_some hleaf) (fun inner hk => ?_) (of_decide_eq_true hlt)
    rw [hk] at htarget
    cases htarget
  have reached : ReachedBy SourceUnit.FieldsApart {} freshWork.registry := .fresh
  obtain ⟨-, -, hreach⟩ := leaves_of_compile reached (findsIds_of_plan hids) hapart hok emitted
    (List.mem_of_find?_eq_some he)
  obtain ⟨child, view, hd, -, -, htakes⟩ := hreach _ .new [] leaf 1 hhas
  obtain rfl : emitted.schema.instantiate = child := Except.ok.inj hd
  refine ⟨reached, hapart, compiled, emitted, leaf, hok, he, hleaf, hhas, htakes ?_⟩
  simp [StructInstance.checkLocated, emitted.schema.attached_instantiate]

/-! ## A name that is declared twice -/

/-- Two stages in one file declare the same uniform. -/
def echoUnit : SourceUnit where
  key := "echo.glsl"
  text := "uniform float gain;uniform float gain;"

/-- The set has two fields with one name, of which look-up finds the first only. -/
theorem gain_hides_gain :
    ∃ compiled emitted,
      (compile {} BindingPool.allocator memorySink echoUnit freshWork).1.result = .ok compiled ∧
      compiled.type? "EchoUniforms" = some emitted ∧
      emitted.schema.fields.map FieldSchema.name = ["gain", "gain"] ∧
      ¬ (emitted.schema.fields.map FieldSchema.name).Nodup ∧
      emitted.schema.fieldIndex? "gain" = some 0 := by
  have hcompiled : (compile {} BindingPool.allocator memorySink echoUnit
      freshWork).1.result.toOption.any (fun compiled =>
        (compiled.type? "EchoUniforms").any fun emitted =>
          emitted.schema.fields.map FieldSchema.name == ["gain", "gain"] &&
            emitted.schema.fieldIndex? "gain" == some 0) = true := by decide +kernel
  obtain ⟨compiled, hok, hcompiled⟩ := exists_ok_of_any hcompiled
  obtain ⟨emitted, he, hcompiled⟩ := (Option.any_eq_true _ _).1 hcompiled
  obtain ⟨hnames, hfirst⟩ := Bool.and_eq_true_iff.1 hcompiled
  have hnames := eq_of_beq hnames
  refine ⟨compiled, emitted, hok, he, hnames, ?_, eq_of_beq hfirst⟩
  rw [hnames]
  decide

end UniformLayout
