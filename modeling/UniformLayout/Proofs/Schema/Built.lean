import UniformLayout.Proofs.Layout.Placement
import UniformLayout.Proofs.Schema.Nesting
import Mathlib.Data.List.Forall2

/-!
# What holds of the schemas that are built

Schemas are kept by content hash, so that a layout may get a schema that was built of another layout
with the same hash. A property of hashes and schemas that one building step establishes holds of every
schema that is built and kept (`toSchema_induction`); it says of a layout's own schema no more than
the hash does. That hashes mean something is said by `StructLayout.DeterminedBy`: what a layout shows
to a view depends on its content hash only.

* `toSchema_induction`: the principle.
* `Built.induction`: the same for the schemas that one builder makes of many layouts.
-/

namespace UniformLayout

/-! ## Fields and their schemas -/

/-- What a shape becomes, where the schemas of nested layouts are related to them by `R`. -/
inductive FieldShape.Becomes (R : StructLayout → TypeSchema → Prop) : FieldShape → FieldKind → Prop
  | handle (kind : HandleKind) : Becomes R (.base (.handle kind)) (.handle kind)
  | value (type : BaseType) (h : type.isHandle = false) : Becomes R (.base type) (.value type)
  | aggregate {layout : StructLayout} {schema : TypeSchema} (h : R layout schema) :
      Becomes R (.aggregate layout) (.aggregate schema)

/-- What a field becomes under the given texture units. -/
structure FieldLayout.Becomes (R : StructLayout → TypeSchema → Prop) (units : Table String Nat)
    (field : FieldLayout) (schema : FieldSchema) : Prop where
  name : schema.name = field.name
  typeName : schema.typeName = field.typeName
  offset : schema.offset = field.offset
  size : schema.size = field.size
  array : schema.array = field.array
  location : schema.location = field.qualifiers.location
  unit : schema.unit = units.lookup field.name
  kind : field.shape.Becomes R schema.kind

theorem FieldLayout.Becomes.mono {R S : StructLayout → TypeSchema → Prop} {units : Table String Nat}
    {field : FieldLayout} {schema : FieldSchema} (h : field.Becomes R units schema)
    (hrs : ∀ inner built, R inner built → S inner built) : field.Becomes S units schema := by
  refine ⟨h.name, h.typeName, h.offset, h.size, h.array, h.location, h.unit, ?_⟩
  have hkind := h.kind
  generalize field.shape = shape at hkind
  generalize schema.kind = kind at hkind
  cases hkind with
  | handle handle => exact .handle handle
  | value type hb => exact .value type hb
  | aggregate hr => exact .aggregate (hrs _ _ hr)

variable {scope : SchemaScope} {Q : String → TypeSchema → Prop}

/-- Every schema of the table has the property under its hash. -/
def SchemaTable.All (kept : SchemaTable) (Q : String → TypeSchema → Prop) : Prop :=
  ∀ hash schema, kept.lookup hash = some schema → Q hash schema

theorem SchemaTable.All.insert {kept : SchemaTable} (h : kept.All Q) {hash : String}
    {schema : TypeSchema} (hq : Q hash schema) : SchemaTable.All (kept.insert hash schema) Q := by
  intro other found hl
  by_cases he : other = hash
  · subst he
    rw [Table.lookup_insert_self] at hl
    obtain rfl := Option.some.inj hl
    exact hq
  · rw [Table.lookup_insert_of_ne he] at hl
    exact h other found hl

/-- The schema of a nested layout is built as the induction says. -/
def FieldLayout.BuiltBy (scope : SchemaScope) (Q : String → TypeSchema → Prop)
    (field : FieldLayout) : Prop :=
  ∀ inner, field.shape = .aggregate inner → ∀ kept schema after, SchemaTable.All kept Q →
    inner.toSchema scope kept = .ok (schema, after) →
      Q inner.contentHash schema ∧ SchemaTable.All after Q

theorem FieldLayout.becomes_of_toSchema {field : FieldLayout} (hb : field.BuiltBy scope Q)
    {units : Table String Nat} {kept after : SchemaTable} (hk : kept.All Q) {schema : FieldSchema}
    (h : field.toSchema scope units kept = .ok (schema, after)) :
    field.Becomes (fun inner built => Q inner.contentHash built) units schema ∧ after.All Q := by
  obtain ⟨name, typeName, shape, offset, size, alignment, array, qualifiers⟩ := field
  rw [FieldLayout.toSchema] at h
  obtain ⟨⟨kind, mid⟩, hkind, h⟩ := bind_eq_ok_iff.1 h
  obtain ⟨rfl, rfl⟩ := Prod.mk.inj (Except.ok.inj h)
  suffices hs : shape.Becomes (fun inner built => Q inner.contentHash built) kind ∧ mid.All Q from
    ⟨⟨rfl, rfl, rfl, rfl, rfl, rfl, rfl, hs.1⟩, hs.2⟩
  cases shape with
  | base type =>
    cases type with
    | handle handle =>
      rw [FieldShape.toKind] at hkind
      obtain ⟨rfl, rfl⟩ := Prod.mk.inj (Except.ok.inj hkind)
      exact ⟨.handle handle, hk⟩
    | scalar _ | vector _ _ | matrix _ _ _ =>
      rw [FieldShape.toKind] at hkind
      · obtain ⟨rfl, rfl⟩ := Prod.mk.inj (Except.ok.inj hkind)
        exact ⟨.value _ rfl, hk⟩
      · intro handle he
        cases he
  | aggregate inner =>
    rw [FieldShape.toKind] at hkind
    obtain ⟨⟨built, last⟩, hbuilt, hkind⟩ := bind_eq_ok_iff.1 hkind
    obtain ⟨rfl, rfl⟩ := Prod.mk.inj (Except.ok.inj hkind)
    obtain ⟨hq, hall⟩ := hb inner rfl kept built last hk hbuilt
    exact ⟨.aggregate hq, hall⟩

theorem becomes_of_fieldsToSchema {fields : List FieldLayout}
    (hb : ∀ field ∈ fields, field.BuiltBy scope Q) {units : Table String Nat}
    {kept after : SchemaTable} (hk : kept.All Q) {schemas : List FieldSchema}
    (h : fieldsToSchema scope units kept fields = .ok (schemas, after)) :
    List.Forall₂ (FieldLayout.Becomes (fun inner built => Q inner.contentHash built) units)
      fields schemas ∧ after.All Q := by
  induction fields generalizing kept schemas with
  | nil =>
    rw [fieldsToSchema] at h
    obtain ⟨rfl, rfl⟩ := Prod.mk.inj (Except.ok.inj h)
    exact ⟨.nil, hk⟩
  | cons field rest ih =>
    rw [fieldsToSchema] at h
    obtain ⟨⟨first, mid⟩, hf, h⟩ := bind_eq_ok_iff.1 h
    obtain ⟨⟨others, last⟩, ho, h⟩ := bind_eq_ok_iff.1 h
    obtain ⟨rfl, rfl⟩ := Prod.mk.inj (Except.ok.inj h)
    obtain ⟨hfirst, hmid⟩ := field.becomes_of_toSchema (hb field List.mem_cons_self) hk hf
    obtain ⟨hothers, hlast⟩ := ih (fun later hm => hb later (List.mem_cons_of_mem _ hm)) hmid ho
    exact ⟨.cons hfirst hothers, hlast⟩

/-- What a building step establishes, from the schemas of the nested layouts. -/
def SchemaScope.Step (scope : SchemaScope) (P : StructLayout → Prop)
    (Q : String → TypeSchema → Prop) : Prop :=
  ∀ (layout : StructLayout) (identity : TypeIdentity) (units : Table String Nat)
    (fields : List FieldSchema), P layout →
    scope.registry.identityOfHash? layout.contentHash = some identity →
    scope.unitsOf layout.kind layout.fields = .ok units →
    List.Forall₂ (FieldLayout.Becomes (fun inner built => Q inner.contentHash built) units)
      layout.fields fields →
    Q layout.contentHash ⟨identity, layout.kind, layout.size, layout.alignment, fields⟩

variable {P : StructLayout → Prop}

/-- What every step establishes, and what held of the kept schemas, holds of the schema that is
built and of those that are kept afterwards. -/
theorem toSchema_induction (step : scope.Step P Q) {layout : StructLayout}
    (hp : layout.Throughout P) {kept after : SchemaTable} (hk : kept.All Q) {schema : TypeSchema}
    (h : layout.toSchema scope kept = .ok (schema, after)) :
    Q layout.contentHash schema ∧ after.All Q := by
  induction hp generalizing kept schema after with
  | @intro layout self _ ih =>
    have hstep := step layout
    obtain ⟨name, contentHash, kind, layouts, size, alignment⟩ := layout
    rw [StructLayout.toSchema] at h
    split at h
    · rename_i found hl
      obtain ⟨rfl, rfl⟩ := Prod.mk.inj (Except.ok.inj h)
      exact ⟨hk contentHash found hl, hk⟩
    · split at h
      · cases h
      · rename_i identity hi
        obtain ⟨units, hu, h⟩ := bind_eq_ok_iff.1 h
        obtain ⟨⟨fields, mid⟩, hf, h⟩ := bind_eq_ok_iff.1 h
        obtain ⟨rfl, rfl⟩ := Prod.mk.inj (Except.ok.inj h)
        have hbuilt : ∀ field ∈ layouts, field.BuiltBy scope Q :=
          fun field hm inner hs kept built after hk hb => ih field hm inner hs hk hb
        obtain ⟨hfields, hmid⟩ := becomes_of_fieldsToSchema hbuilt hk hf
        have hq := hstep identity units fields self hi hu hfields
        exact ⟨hq, hmid.insert hq⟩

/-- A layout whose hash is not kept gets a schema of its own. -/
theorem toSchema_of_new (step : scope.Step P Q) {layout : StructLayout} {kept after : SchemaTable}
    (hnew : kept.lookup layout.contentHash = none) (hk : kept.All Q)
    (hp : ∀ field ∈ layout.fields, ∀ inner, field.shape = .aggregate inner → inner.Throughout P)
    {schema : TypeSchema} (h : layout.toSchema scope kept = .ok (schema, after)) :
    ∃ identity units fields,
      scope.registry.identityOfHash? layout.contentHash = some identity ∧
      scope.unitsOf layout.kind layout.fields = .ok units ∧
      List.Forall₂ (FieldLayout.Becomes (fun inner built => Q inner.contentHash built) units)
        layout.fields fields ∧
      schema = ⟨identity, layout.kind, layout.size, layout.alignment, fields⟩ := by
  obtain ⟨name, contentHash, kind, layouts, size, alignment⟩ := layout
  rw [StructLayout.toSchema] at h
  dsimp only at hnew hp ⊢
  rw [hnew] at h
  dsimp only at h
  split at h
  · cases h
  · rename_i identity hi
    obtain ⟨units, hu, h⟩ := bind_eq_ok_iff.1 h
    obtain ⟨⟨fields, mid⟩, hf, h⟩ := bind_eq_ok_iff.1 h
    obtain ⟨rfl, rfl⟩ := Prod.mk.inj (Except.ok.inj h)
    have hbuilt : ∀ field ∈ layouts, field.BuiltBy scope Q :=
      fun field hm inner hs kept built after hk hb => toSchema_induction step (hp field hm inner hs) hk hb
    obtain ⟨hfields, -⟩ := becomes_of_fieldsToSchema hbuilt hk hf
    exact ⟨identity, units, fields, hi, hu, hfields, rfl⟩

/-! ## One builder -/

/-- The schemas that a builder keeps after it has built schemas of the given layouts, the last one
first. -/
inductive Built (scope : SchemaScope) : List StructLayout → SchemaTable → Prop
  | none : Built scope [] []
  | build {layouts : List StructLayout} {kept after : SchemaTable} {layout : StructLayout}
      {schema : TypeSchema} (h : Built scope layouts kept)
      (made : layout.toSchema scope kept = .ok (schema, after)) : Built scope (layout :: layouts) after

theorem Built.induction (step : scope.Step P Q) {layouts : List StructLayout} {kept : SchemaTable}
    (h : Built scope layouts kept) (hp : ∀ layout ∈ layouts, layout.Throughout P) : kept.All Q := by
  induction h with
  | none =>
    intro hash schema hl
    cases hl
  | build _ made ih =>
    obtain ⟨hlayout, hrest⟩ := List.forall_mem_cons.1 hp
    exact (toSchema_induction step hlayout (ih hrest) made).2

/-! ## What a hash determines -/

/-- What the layout, and every layout nested in it, shows to a view is what is known of its content
hash. -/
def StructLayout.DeterminedBy {α : Type} (view : StructLayout → α) (known : String → α)
    (layout : StructLayout) : Prop :=
  layout.Throughout fun inner => view inner = known inner.contentHash

theorem StructLayout.Throughout.head {P : StructLayout → Prop} {layout : StructLayout}
    (h : layout.Throughout P) : P layout := by
  obtain ⟨self, -⟩ := h
  exact self

/-- What holds throughout a layout holds of the layouts nested in it, throughout. -/
theorem StructLayout.Throughout.throughout {P : StructLayout → Prop} {layout : StructLayout}
    (h : layout.Throughout P) : layout.Throughout fun inner => inner.Throughout P := by
  induction h with
  | intro self nested ih => exact .intro (.intro self nested) ih

theorem StructLayout.Throughout.and {P Q : StructLayout → Prop} {layout : StructLayout}
    (h : layout.Throughout P) (k : layout.Throughout Q) :
    layout.Throughout fun inner => P inner ∧ Q inner := by
  induction h with
  | intro self _ ih =>
    obtain ⟨hq, hnested⟩ := k
    exact .intro ⟨self, hq⟩ fun field hm inner hs => ih field hm inner hs (hnested field hm inner hs)

/-- A hash determines what is read off a view that it determines. -/
theorem StructLayout.DeterminedBy.map {α β : Type} {view : StructLayout → α} {known : String → α}
    {layout : StructLayout} (h : layout.DeterminedBy view known) (f : α → β) :
    layout.DeterminedBy (fun inner => f (view inner)) fun hash => f (known hash) :=
  h.mono fun _ hv => congrArg f hv

/-- A hash determines a layout if it does so for the layout itself and for the table that it was laid
out with. -/
theorem StructLayout.determinedBy_of_layOut {α : Type} {view : StructLayout → α}
    {known : String → α} {nested : LayoutTable} (hn : nested.LaidOut) {decl : TypeDeclaration}
    {contentHash : String} {layout : StructLayout}
    (made : decl.layOut contentHash nested = .ok layout) (hself : view layout = known contentHash)
    (hnested : ∀ name below, nested.lookup name = some below → below.DeterminedBy view known) :
    layout.DeterminedBy view known := by
  obtain ⟨-, rfl, -, -⟩ := eq_exactLayout hn made
  exact .intro hself fun field hm below hs => hnested _ below (lookup_of_exactFields hm hs)

/-- What is nested in a layout that `layOut` has made was made by it as well. -/
theorem StructLayout.LaidOut.throughout {layout : StructLayout} (h : layout.LaidOut) :
    layout.Throughout StructLayout.LaidOut := by
  induction h with
  | intro inner made ih =>
    refine .intro (.intro inner made) fun field hm below hs => ?_
    obtain ⟨-, rfl, -, -⟩ := eq_exactLayout inner made
    exact ih _ below (lookup_of_exactFields hm hs)

end UniformLayout
