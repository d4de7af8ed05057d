import UniformLayout.Proofs.Artifact.Facade
import UniformLayout.Proofs.Compilation.Emission
import UniformLayout.Proofs.Lists
import UniformLayout.Proofs.Schema.Built

/-!
# Sources of schemas that are built again

The schema of a layout can be built again at any time, by a builder that keeps other schemas or none,
and in a registry that has grown since. As long as layouts with one content hash do not differ in what
sources show of them, which is their `bulk`, the source is the same each time.

* `stub_step`: what schemas show to the sources of the types that hold them.
* `facade_eq_of_toSchema`: two builders make the same facade.

Main statement: `fixesSource_of_toSchema`.
-/

namespace UniformLayout

mutual

/-- The number of handles, however many there are. -/
def FieldShape.handles : FieldShape → Nat
  | .base type => if type.isHandle then 1 else 0
  | .aggregate layout => layout.handles

def FieldLayout.handles : FieldLayout → Nat
  | { shape, array, .. } => shape.handles * array.elim 1 ArrayLayout.length

def StructLayout.handles : StructLayout → Nat
  | { fields, .. } => handlesOf fields

def handlesOf : List FieldLayout → Nat
  | [] => 0
  | field :: rest => field.handles + handlesOf rest

end

/-- What sources show of a nested type beside its name: its size and the number of its handles. -/
def StructLayout.bulk (layout : StructLayout) : Nat × Nat := (layout.size, layout.handles)

/-- What the schema of a hash shows to the sources of the types that hold it. -/
def Registry.stub (registry : Registry) (known : String → Nat × Nat) (hash : String) : TypeSchema :=
  .stubOf ((registry.identityOfHash? hash).elim "" TypeIdentity.generatedName) (known hash).1
    (known hash).2

/-- What hashes say of the layout, and of all that is nested in it, is true. -/
def StructLayout.Matches (registry : Registry) (known : String → Nat × Nat)
    (stubs : String → TypeSchema) (layout : StructLayout) : Prop :=
  layout.Throughout fun inner => inner.bulk = known inner.contentHash ∧
    stubs inner.contentHash = registry.stub known inner.contentHash

variable {registry : Registry} {limit : Nat} {known : String → Nat × Nat}
  {stubs : String → TypeSchema} {layout : StructLayout}

theorem StructLayout.Matches.nested (h : layout.Matches registry known stubs) {field : FieldLayout}
    (hm : field ∈ layout.fields) {inner : StructLayout} (hs : field.shape = .aggregate inner) :
    inner.Matches registry known stubs := by
  obtain ⟨-, hnested⟩ := h
  exact hnested field hm inner hs

/-- The schema of a nested layout has its handles, as its stub says. -/
theorem handleCount_of_stub (h : layout.Matches registry known stubs) {schema : TypeSchema}
    (hs : schema.stub = stubs layout.contentHash) : schema.handleCount = layout.handles := by
  obtain ⟨hbulk, hstub⟩ := h.head
  calc schema.handleCount
      = schema.stub.handleCount := schema.handleCount_stub.symm
    _ = (known layout.contentHash).2 := by
      rw [hs, hstub, Registry.stub, TypeSchema.handleCount_stubOf]
    _ = layout.handles := by rw [← hbulk, StructLayout.bulk]

/-! ## Fields -/

section

variable {units : Table String Nat} {field : FieldLayout} {schema other : FieldSchema}

/-- What a field becomes, where schemas of nested layouts show what their hashes say. -/
def FieldLayout.BecomesAs (stubs : String → TypeSchema) (units : Table String Nat)
    (field : FieldLayout) (schema : FieldSchema) : Prop :=
  field.Becomes (fun inner built => built.stub = stubs inner.contentHash) units schema

theorem FieldLayout.BecomesAs.handleCount_eq (h : field.BecomesAs stubs units schema)
    (hn : ∀ inner, field.shape = .aggregate inner → inner.Matches registry known stubs) :
    schema.handleCount = field.handles := by
  obtain ⟨-, -, -, -, harray, -, -, hkind⟩ := h
  obtain ⟨name, typeName, shape, offset, size, alignment, array, qualifiers⟩ := field
  obtain ⟨name', typeName', kind, offset', size', array', location, unit⟩ := schema
  dsimp only at harray hkind hn
  rw [FieldSchema.handleCount, FieldLayout.handles, harray]
  congr 1
  cases hkind with
  | handle kind => rfl
  | value type hv =>
    rw [FieldKind.handleCount, FieldShape.handles, hv]
    rfl
  | aggregate hr =>
    rw [FieldKind.handleCount, FieldShape.handles, handleCount_of_stub (hn _ rfl) hr]

theorem handleCountOf_eq {layouts : List FieldLayout} {fields : List FieldSchema}
    (h : List.Forall₂ (FieldLayout.BecomesAs stubs units) layouts fields)
    (hn : ∀ field ∈ layouts, ∀ inner, field.shape = .aggregate inner →
      inner.Matches registry known stubs) : handleCountOf fields = handlesOf layouts := by
  induction h with
  | nil => rw [handleCountOf, handlesOf]
  | cons hfirst _ ih =>
    obtain ⟨hself, hrest⟩ := List.forall_mem_cons.1 hn
    rw [handleCountOf, handlesOf, hfirst.handleCount_eq hself, ih hrest]

/-- A shape becomes the same kind each time, as far as sources show it. -/
theorem FieldShape.Becomes.stub_eq {shape : FieldShape} {kind kind' : FieldKind}
    (h : shape.Becomes (fun inner built => built.stub = stubs inner.contentHash) kind)
    (k : shape.Becomes (fun inner built => built.stub = stubs inner.contentHash) kind') :
    kind.stub = kind'.stub := by
  cases h with
  | handle handle =>
    cases k with
    | handle => rfl
    | value _ hv => cases hv
  | value type hv =>
    cases k with
    | handle => cases hv
    | value => rfl
  | aggregate hr =>
    cases k with
    | aggregate kr => exact congrArg FieldKind.aggregate (hr.trans kr.symm)

theorem FieldLayout.BecomesAs.stub_eq (h : field.BecomesAs stubs units schema)
    (k : field.BecomesAs stubs units other) : schema.stub = other.stub := by
  obtain ⟨hname, htype, hoffset, hsize, harray, hlocation, hunit, hkind⟩ := h
  obtain ⟨kname, ktype, koffset, ksize, karray, klocation, kunit, kkind⟩ := k
  unfold FieldSchema.stub
  rw [hname, htype, hoffset, hsize, harray, hlocation, hunit, kname, ktype, koffset, ksize, karray,
    klocation, kunit, hkind.stub_eq kkind]

end

/-! ## Building -/

/-- What a schema shows is what its hash says. -/
theorem stub_step (registry : Registry) (limit : Nat) (known : String → Nat × Nat)
    (stubs : String → TypeSchema) :
    SchemaScope.Step ⟨registry, limit⟩ (StructLayout.Matches registry known stubs)
      fun hash schema => schema.stub = stubs hash := by
  intro layout identity units fields hmatches hidentity _ hfields
  obtain ⟨hbulk, hstub⟩ := hmatches.head
  have hcount : handleCountOf fields = layout.handles := by
    rw [handleCountOf_eq hfields fun field hm inner hs => hmatches.nested hm hs]
    obtain ⟨name, contentHash, kind, layouts, size, alignment⟩ := layout
    rw [StructLayout.handles]
  dsimp only at hidentity ⊢
  rw [hstub, Registry.stub, hidentity, ← hbulk]
  unfold TypeSchema.stub StructLayout.bulk
  rw [TypeSchema.handleCount, hcount]
  rfl

/-- **Facades.** A layout gets the same facade from two builders that have not kept its hash, in
registries that agree on its identity. -/
theorem facade_eq_of_toSchema {later : Registry} {kept kept' after after' : SchemaTable}
    {schema schema' : TypeSchema}
    (hidentity : later.identityOfHash? layout.contentHash =
      registry.identityOfHash? layout.contentHash)
    (hmatches : layout.Matches registry known stubs) (hlater : layout.Matches later known stubs)
    (hnew : kept.lookup layout.contentHash = none) (hnew' : kept'.lookup layout.contentHash = none)
    (hk : kept.All fun hash schema => schema.stub = stubs hash)
    (hk' : kept'.All fun hash schema => schema.stub = stubs hash)
    (made : layout.toSchema ⟨registry, limit⟩ kept = .ok (schema, after))
    (made' : layout.toSchema ⟨later, limit⟩ kept' = .ok (schema', after')) :
    schema'.facade = schema.facade := by
  have htrue : ∀ {registry : Registry}, layout.Matches registry known stubs →
      ∀ field ∈ layout.fields, ∀ inner, field.shape = .aggregate inner →
        inner.Throughout (StructLayout.Matches registry known stubs) :=
    fun h field hm inner hs => (h.nested hm hs).throughout
  obtain ⟨identity, units, fields, hi, hu, hfields, rfl⟩ :=
    toSchema_of_new (stub_step registry limit known stubs) hnew hk (htrue hmatches) made
  obtain ⟨identity', units', fields', hi', hu', hfields', rfl⟩ :=
    toSchema_of_new (stub_step later limit known stubs) hnew' hk' (htrue hlater) made'
  obtain rfl := Option.some.inj (hi'.symm.trans (hidentity.trans hi))
  obtain rfl := Except.ok.inj (hu'.symm.trans hu)
  unfold TypeSchema.facade
  have hsame : List.Forall₂ (fun first second => FieldSchema.stub first = second.stub) fields fields' :=
    forall₂_of_common hfields hfields' fun field first second h k =>
      FieldLayout.BecomesAs.stub_eq h k
  rw [map_eq_of_forall₂ hsame fun first _ second h => h.symm]

/-! ## Sources -/

/-- The source of a layout's type, from a schema that is built before any other. -/
def Registry.freshSource? (registry : Registry) (limit : Nat) (runtime : String)
    (layout : StructLayout) : Option String :=
  (layout.toSchema ⟨registry, limit⟩ []).toOption.map fun (schema, _) => schema.hostSource runtime

/-- Building the schema of the layout afresh gives the source, now and whenever types have been
added to the registry. -/
def Registry.FixesSource (registry : Registry) (limit : Nat) (runtime : String)
    (layout : StructLayout) (text : String) : Prop :=
  ∀ later : Registry, later.Settled limit → registry.begun ⊆ later.begun →
    later.freshSource? limit runtime layout = some text

theorem Registry.FixesSource.mono {later : Registry} {runtime text : String}
    (h : registry.FixesSource limit runtime layout text) (hb : registry.begun ⊆ later.begun) :
    later.FixesSource limit runtime layout text :=
  fun last hs hl => h last hs fun _ hm => hl (hb hm)

/-- A type that has been begun is found by its hash. -/
theorem Registry.Consistent.identityOfHash_of_begun (h : registry.Consistent)
    {identity : TypeIdentity} {state : GenerationState} {descriptor? : Option LayoutDescriptor}
    (hm : (identity, state, descriptor?) ∈ registry.begun) :
    registry.identityOfHash? identity.contentHash = some identity := by
  obtain ⟨i, record, hr, hcore, -⟩ := Registry.mem_begun_iff.1 hm
  obtain rfl : record.identity = identity := congrArg Prod.fst hcore
  rw [Registry.identityOfHash?, h.ofHash_of_getElem? hr]
  rfl

/-- What is on offer keeps its identity. -/
theorem Registry.Offers.identityOfHash_eq {later : Registry} (h : registry.Offers limit layout)
    (hc : registry.Consistent) (hl : later.Consistent) (hb : registry.begun ⊆ later.begun) :
    later.identityOfHash? layout.contentHash = registry.identityOfHash? layout.contentHash := by
  obtain ⟨⟨identity, descriptor?, hm, he⟩, -⟩ := h
  rw [← he, hc.identityOfHash_of_begun hm, hl.identityOfHash_of_begun (hb hm)]

/-- **Rebuilding.** Once the type of a layout is on offer, the source that a builder has made for it
can be made again. -/
theorem fixesSource_of_toSchema {grown : Registry} {kept after : SchemaTable} {schema : TypeSchema}
    (hgrown : grown.Consistent)
    (hids : ∀ hash, grown.identityOfHash? hash = registry.identityOfHash? hash)
    (hoffer : layout.Throughout (grown.Offers limit))
    (hnew : kept.lookup layout.contentHash = none)
    (hk : kept.All fun hash schema => schema.stub = registry.stub known hash)
    (hd : layout.DeterminedBy StructLayout.bulk known)
    (made : layout.toSchema ⟨registry, limit⟩ kept = .ok (schema, after)) (runtime : String) :
    grown.FixesSource limit runtime layout (schema.hostSource runtime) := by
  intro later hsettled hbegun
  have hl := hsettled.wellFormed.consistent
  have hsame : layout.Throughout fun inner =>
      later.identityOfHash? inner.contentHash = registry.identityOfHash? inner.contentHash :=
    hoffer.mono fun inner ho => (ho.identityOfHash_eq hgrown hl hbegun).trans (hids _)
  have hmatches : layout.Matches registry known (registry.stub known) :=
    hd.mono fun _ hbulk => ⟨hbulk, rfl⟩
  have hlater : layout.Matches later known (registry.stub known) := by
    refine (hd.and hsame).mono fun inner ⟨hbulk, hidentity⟩ => ⟨hbulk, ?_⟩
    rw [Registry.stub, Registry.stub, hidentity]
  obtain ⟨⟨schema', after'⟩, made'⟩ : ∃ result, layout.toSchema ⟨later, limit⟩ [] = .ok result :=
    toSchema_isOk (hoffer.mono fun _ ho => (ho.mono hbegun).accepted hl) []
  have hfacade := facade_eq_of_toSchema hsame.head hmatches hlater hnew (List.lookup_nil) hk
    (fun _ _ hm => by cases hm) made made'
  unfold Registry.freshSource?
  rw [made', ← schema.hostSource_facade, ← hfacade, TypeSchema.hostSource_facade]
  rfl

end UniformLayout
