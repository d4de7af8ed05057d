import UniformLayout.Proofs.Compilation.Lookups
import UniformLayout.Proofs.Compilation.Repetition
import UniformLayout.Proofs.Compilation.Slots

/-!
# Types that a unit takes by name

A unit may use a struct that it does not declare. The registry then says which identity the name stands
for and which layout has been stored for it, and both are found in what is made for the unit: the hash
of each declaration that uses the name is made with the hash of the identity, and its fields of this
type are laid out with that very layout (`EmittedType.BuiltOn`).

* `Resolution.Course.lookup_borrowed`: the hash and the layout under a name that is only used.
* `usesLayout_of_layOut`: what the fields of a declaration are laid out with.

Main statement: `builtOn_of_compile`.
-/

namespace UniformLayout

variable {σ τ : Type}

/-! ## Fields -/

/-- The fields are those of the declaration, and where they are of the named type, they have the
layout. -/
def TypeDeclaration.UsesLayout (decl : TypeDeclaration) (name : String) (layout : StructLayout)
    (made : StructLayout) : Prop :=
  List.Forall₂ (fun field placed => placed.name = field.name ∧
    (field.baseType? = none → field.typeName = name → placed.shape = .aggregate layout))
    decl.fields made.fields

theorem usesLayout_of_layOut {decl : TypeDeclaration} {contentHash name : String}
    {nested : LayoutTable} {layout made : StructLayout} (hl : nested.lookup name = some layout)
    (h : decl.layOut contentHash nested = .ok made) : decl.UsesLayout name layout made := by
  obtain ⟨fields, size, hfields, -, rfl⟩ := layOut_eq_ok h
  refine (layOutFields_shapes hfields).imp ?_
  rintro field placed ⟨hname, -, hshape⟩
  refine ⟨hname, fun hbase ht => ?_⟩
  unfold FieldDeclaration.shape at hshape
  rw [hbase, ht, hl] at hshape
  exact (Except.ok.inj hshape).symm

/-! ## Names that are only used -/

/-- The unit declares the name in the file: in its own text, or in a shared source. -/
def SourceUnit.DeclaresIn (unit : SourceUnit) (name file : String) : Prop :=
  ∃ contents shared, unit.read.result = .ok (contents, shared) ∧
    ∃ decl ∈ SourceUnit.declarations contents shared, decl.name = name ∧ decl.source.file = file

def SourceUnit.Declares (unit : SourceUnit) (name : String) : Prop :=
  ∃ file, unit.DeclaresIn name file

theorem SourceUnit.declaresIn_iff (unit : SourceUnit) (name file : String) :
    unit.DeclaresIn name file ↔ (unit.read.result.toOption.any fun found =>
      (SourceUnit.declarations found.1 found.2).any fun decl =>
        decl.name == name && decl.source.file == file) = true := by
  unfold DeclaresIn
  cases unit.read.result with
  | error e => simp [Except.toOption]
  | ok found => simp [Except.toOption, Prod.ext_iff]

instance (unit : SourceUnit) (name file : String) : Decidable (unit.DeclaresIn name file) :=
  decidable_of_iff' _ (unit.declaresIn_iff name file)

theorem SourceUnit.declares_iff (unit : SourceUnit) (name : String) :
    unit.Declares name ↔ (unit.read.result.toOption.any fun found =>
      (SourceUnit.declarations found.1 found.2).any (·.name == name)) = true := by
  unfold Declares DeclaresIn
  cases unit.read.result with
  | error e => simp [Except.toOption]
  | ok found => simp [Except.toOption, Prod.ext_iff]

instance (unit : SourceUnit) (name : String) : Decidable (unit.Declares name) :=
  decidable_of_iff' _ (unit.declares_iff name)

/-- A name that is used in the source stands for the identity, and its layout has been stored. -/
structure Registry.Answers (registry : Registry) (key name : String) (identity : TypeIdentity)
    (layout : StructLayout) : Prop where
  resolved : registry.resolveDeclaredIn? name key = some identity
  stored : registry.stored? identity.contentHash = some layout

section

variable {registry : Registry} {limit : Nat} {key : String}
  {decls distinct handled : List TypeDeclaration} {resolution referenced : Resolution}

/-- What is taken for a name is what the registry answers. -/
theorem resolveReferences_answers (h : resolveReferences registry key decls = .ok resolution) :
    ∀ entry ∈ resolution.reused, ∃ identity,
      registry.resolveDeclaredIn? entry.name key = some identity ∧
        registry.descriptorOfHash? identity.contentHash = some entry.descriptor := by
  refine resolveReferences_induction (P := fun found => ∀ entry ∈ found.reused, ∃ identity,
    registry.resolveDeclaredIn? entry.name key = some identity ∧
      registry.descriptorOfHash? identity.contentHash = some entry.descriptor) (by simp) ?_ h
  intro owner _ name _ _ before after hb ha
  rcases resolveReference_eq_ok ha with ⟨-, rfl⟩ | ⟨-, identity, descriptor, hi, hd, rfl⟩
  · exact hb
  · intro entry hm
    rcases List.mem_append.1 hm with hm | hm
    · exact hb entry hm
    · rw [List.mem_singleton.1 hm]
      exact ⟨identity, hi, hd⟩

theorem resolveReferences_layout {name : String} {identity : TypeIdentity} {layout : StructLayout}
    (h : resolveReferences registry key decls = .ok resolution)
    (ha : registry.Answers key name identity layout) {entry : ReusedType}
    (hm : entry ∈ resolution.reused) (hname : entry.name = name) :
    registry.descriptorOfHash? identity.contentHash = some entry.descriptor ∧
      entry.descriptor.layout = layout := by
  obtain ⟨other, hresolved, hd⟩ := resolveReferences_answers h entry hm
  rw [hname, ha.resolved] at hresolved
  obtain rfl := Option.some.inj hresolved
  have hstored := ha.stored
  unfold Registry.stored? at hstored
  rw [hd] at hstored
  exact ⟨hd, Option.some.inj hstored⟩

/-- A type that is used and not declared has been looked up. -/
theorem Resolution.Course.knows_of_dependency
    (hc : resolution.Course registry key decls distinct handled referenced) {name : String}
    (hn : declared? decls name = none) {decl : TypeDeclaration} (hd : decl ∈ handled)
    (hname : name ∈ decl.dependencies) : referenced.knows name := by
  obtain ⟨before, after, rfl⟩ := List.append_of_mem hd
  refine (handles_order hc.handles name hname).resolve_right fun hm => ?_
  obtain ⟨first, hfirst, rfl⟩ := List.mem_map.1 hm
  have hhandled := hc.mem_handled.1 (List.mem_append_left (decl :: after) hfirst)
  rw [hn] at hhandled
  cases hhandled

/-- The hash and the layout of a name that is used and not declared are those that the registry
answers. -/
theorem Resolution.Course.lookup_borrowed
    (hc : resolution.Course registry key decls distinct handled referenced)
    (hs : registry.Settled limit) {name : String} (hn : declared? decls name = none)
    {identity : TypeIdentity} {layout : StructLayout}
    (ha : registry.Answers key name identity layout) (hk : referenced.knows name) :
    referenced.hashes.lookup name = some identity.contentHash ∧
      resolution.reusedLayouts.lookup name = some layout := by
  obtain ⟨entry, hm, rfl⟩ := resolveReferences_listed hc.references name hk
  obtain ⟨hd, rfl⟩ := resolveReferences_layout hc.references ha hm rfl
  constructor
  · rw [(resolveReferences_borrows hc.references).entry entry hm, ← (hs.usable hd).hash,
      hs.hash_of_descriptor hd]
  · refine lookup_of_mem_of_agree (List.mem_map.2 ⟨entry, ?_, rfl⟩) fun other ho => ?_
    · rw [hc.parts.2]
      exact List.mem_append_left _ hm
    · -- Nothing that the unit declares has this name.
      obtain ⟨found, hfound, he⟩ := List.mem_map.1 ho
      obtain ⟨hname, rfl⟩ := Prod.mk.inj he
      rw [hc.parts.2] at hfound
      rcases List.mem_append.1 hfound with hfound | hfound
      · exact (resolveReferences_layout hc.references ha hfound hname).2
      · obtain ⟨decl, hdecl, hsome⟩ := List.mem_filterMap.1 hfound
        obtain ⟨descriptor, -, rfl⟩ := Option.map_eq_some_iff.1 hsome
        have hhandled := hc.mem_handled.1 hdecl
        rw [show decl.name = entry.name from hname, hn] at hhandled
        cases hhandled

/-- Each declaration is hashed with the hashes of what was known before. -/
theorem addAll_hash_of_known {decls : List TypeDeclaration} {resolution : Resolution}
    (hn : (decls.map TypeDeclaration.name).Nodup)
    (hnew : ∀ decl ∈ decls, ¬ resolution.knows decl.name) :
    ∀ decl ∈ decls, ∃ hashes : HashTable,
      (∀ name, resolution.knows name → hashes.lookup name = resolution.hashes.lookup name) ∧
        (resolution.addAll registry decls).hashes.lookup decl.name =
          some (decl.contentHash hashes) := by
  intro decl hm
  obtain ⟨before, after, rfl⟩ := List.append_of_mem hm
  rw [List.map_append, List.map_cons] at hn
  obtain ⟨hbefore, hrest, hapart⟩ := List.nodup_append.1 hn
  obtain ⟨hself, hafter⟩ := List.nodup_cons.1 hrest
  obtain ⟨hknows, hkeeps⟩ := @addAll_hashes registry resolution before hbefore
    fun other ho => hnew other (List.mem_append_left _ ho)
  refine ⟨(resolution.addAll registry before).hashes, hkeeps, ?_⟩
  have hlater : ∀ other ∈ after, ¬ ((resolution.addAll registry before).addDeclaration registry
      decl).knows other.name := by
    intro other ho hk
    have hmem := List.mem_map_of_mem (f := TypeDeclaration.name) ho
    rcases knows_addDeclaration.1 hk with he | hk
    · exact hself (he ▸ hmem)
    · rcases (hknows _).1 hk with hk | hk
      · exact hnew other (List.mem_append_right _ (List.mem_cons_of_mem _ ho)) hk
      · exact hapart _ hk _ (List.mem_cons_of_mem _ hmem) rfl
  have hall : resolution.addAll registry (before ++ decl :: after) =
      ((resolution.addAll registry before).addDeclaration registry decl).addAll registry after := by
    unfold Resolution.addAll
    rw [List.foldl_append, List.foldl_cons]
  rw [hall, (addAll_hashes hafter hlater).2 _ (knows_addDeclaration.2 (Or.inl rfl)),
    hashes_addDeclaration]
  exact Table.lookup_insert_self _ _ _

/-- Layouts for declarations that use the name are made with the layout that the registry answers. -/
theorem Resolution.Course.made_borrowed
    (hc : resolution.Course registry key decls distinct handled referenced) {name : String}
    (hn : declared? decls name = none) {layout : StructLayout}
    (hl : resolution.reusedLayouts.lookup name = some layout) {fresh : List PlannedType}
    (hf : layOutAll resolution.reusedLayouts resolution.order = .ok fresh) :
    List.Forall₂ (PlannedType.MadeFrom fun resolved made =>
      resolved.declaration.UsesLayout name layout made) resolution.order fresh := by
  refine layOutAll_induction (I := fun nested => nested.lookup name = some layout)
    (fun nested hnested resolved hm made hmade => ?_) hl hf
  refine ⟨usesLayout_of_layOut hnested hmade, ?_⟩
  rw [hc.parts.1] at hm
  obtain ⟨decl, hd, -, rfl⟩ := mem_newTypes.1 hm
  rw [List.lookup_cons, beq_eq_false_iff_ne.2, ← hnested]
  rintro rfl
  have hhandled := hc.mem_handled.1 hd
  rw [hn] at hhandled
  cases hhandled

end

/-! ## What is returned -/

/-- The type has been built for a declaration that uses the name. Its hash is made with the hash of the
identity; where a layout is made for it, the fields of the named type have the given layout, and where
one has been stored for the hash, the type keeps that one. -/
structure EmittedType.BuiltOn (registry : Registry) (name : String) (identity : TypeIdentity)
    (layout : StructLayout) (decl : TypeDeclaration) (emitted : EmittedType) : Prop where
  hash : ∃ hashes : HashTable, hashes.lookup name = some identity.contentHash ∧
    emitted.identity.contentHash = decl.contentHash hashes
  fresh : registry.stored? emitted.identity.contentHash = none →
    decl.UsesLayout name layout emitted.descriptor.layout
  kept : ∀ known, registry.stored? emitted.identity.contentHash = some known →
    emitted.descriptor.layout = known

/-- The types of a unit that use a name without declaring it are built on what the registry answers. -/
theorem builtOn_of_compile {settings : Settings} {allocator : SlotAllocator σ}
    {sink : ArtifactSink τ} {unit : SourceUnit} {work : Workspace σ τ} {compiled : CompiledUnit}
    (reached : Reached settings work.registry) (ids : unit.FindsIds work.registry)
    (h : (compile settings allocator sink unit work).1.result = .ok compiled) {name : String}
    (used : ¬ unit.Declares name) {identity : TypeIdentity} {layout : StructLayout}
    (ha : work.registry.Answers unit.key name identity layout) :
    ∃ distinct, unit.distinct.result = .ok distinct ∧
      ∀ decl ∈ distinct, name ∈ decl.dependencies →
        ∃ emitted, compiled.type? decl.name = some emitted ∧
          emitted.BuiltOn work.registry name identity layout decl := by
  obtain ⟨plan, -, hplan, -⟩ := compile_eq_ok h
  obtain ⟨contents, shared, resolution, hread, hr, ht⟩ := plan_eq_ok hplan
  obtain ⟨distinct, handled, referenced, hdistinct, hc⟩ := resolve_course hr
  obtain ⟨given, -, hreturned⟩ := returned_of_compile reached ids hplan h
  have hs := reached.settled
  have hn : declared? (SourceUnit.declarations contents shared) name = none := by
    refine List.find?_eq_none.2 fun decl hm he => used ?_
    exact ⟨decl.source.file, contents, shared, hread, decl, hm, eq_of_beq he, rfl⟩
  refine ⟨distinct, Logged.result_bind_eq_ok_iff.2 ⟨_, hread, hdistinct⟩, fun decl hm hname => ?_⟩
  have hd := hc.perm.mem_iff.2 hm
  obtain ⟨planned, hp, hstands⟩ := exists_of_mem_left (hc.stands ht) hd
  obtain ⟨emitted, he, hemitted⟩ := exists_of_mem_left hreturned hp
  have hdecl := hstands.declaration
  have hhash : emitted.identity.contentHash = resolution.hashOf decl :=
    hemitted.emitted.identity.trans (hstands.contentHash hs)
  refine ⟨emitted, ?_, ?_⟩
  · rw [← hdecl]
    exact type?_of_emitted (hreturned.imp fun _ _ hr => hr.emitted) (declarations_of_plan hplan).1 he
      hemitted.emitted
  have hknows := hc.knows_of_dependency hn hd hname
  obtain ⟨hlookup, hlayout⟩ := hc.lookup_borrowed hs hn ha hknows
  obtain ⟨hashes, hkeeps, hprint⟩ := addAll_hash_of_known hc.names_nodup hc.unknown decl hd
  obtain ⟨same, -, hplanned⟩ :=
    exists_of_mem_right (hc.planned ht fun fresh => hc.made_borrowed hn hlayout) hp
  obtain rfl : same = decl := hplanned.declaration.symm.trans hdecl
  refine ⟨⟨hashes, (hkeeps name hknows).trans hlookup, ?_⟩, fun hnone => ?_, fun known hknown => ?_⟩
  · rw [hhash, Resolution.hashOf, hc.hashes_eq, hprint]
    rfl
  · rw [hhash, Registry.stored?] at hnone
    rw [hemitted.emitted.layout]
    rcases hplanned with ⟨descriptor, hdescriptor, -⟩ | ⟨-, hmade⟩
    · rw [hdescriptor] at hnone
      cases hnone
    · exact hmade.layout
  · rw [hhash, Registry.stored?] at hknown
    rw [hemitted.emitted.layout]
    rcases hplanned with ⟨descriptor, hdescriptor, rfl⟩ | ⟨hnew, -⟩
    · rw [hdescriptor] at hknown
      exact Option.some.inj hknown
    · rw [hnew] at hknown
      cases hknown

end UniformLayout
