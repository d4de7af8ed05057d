import UniformLayout.Artifact.Wrapper
import UniformLayout.Proofs.Binding.Units
import UniformLayout.Proofs.Lists
import UniformLayout.Proofs.Schema.Built
import Mathlib.Algebra.GroupWithZero.Nat

/-!
# Texture units in schemas

Handles are counted on layouts, where the count stops at the largest number of 32 bits, and again on
schemas. A layout that was laid out has a place for each of its handles, so its count never stops, and
the two agree wherever layouts with one content hash have one count. Then every free uniform has a
stretch of units for the handles below it, and the expressions in the code of generated wrappers have
the units of the stretch as values, in declaration order.

* `StructLayout.LaidOut.four_handleCount_le`, `StructLayout.LaidOut.handleCountOf_eq`: counts.
* `counted_of_toSchema`, `unit_outsideSets_of_toSchema`: the units of built schemas.
* `TypeSchema.HasOwnUnits.nodup`: the units of all leaves.
* `TypeSchema.Bare.wrapperLeaves_eq`, `TypeSchema.wrapperLeaves_eq`: what wrappers compute.
-/

namespace UniformLayout

theorem FieldSchema.handleCount_eq (field : FieldSchema) :
    field.handleCount = field.kind.handleCount * field.length := by
  cases field
  rw [FieldSchema.handleCount]
  rfl

/-! ## Counting on layouts -/

theorem FieldLayout.handleCount_eq (field : FieldLayout) :
    field.handleCount = boundedMul field.shape.handleCount field.length := by
  cases field
  rw [FieldLayout.handleCount]
  rfl

theorem StructLayout.handleCount_eq (layout : StructLayout) :
    layout.handleCount = handleCountAll layout.fields := by
  cases layout
  rw [StructLayout.handleCount]

/-- A field has four bytes for each of its handles. -/
theorem FieldLayout.Regular.four_handleCount_le {field : FieldLayout} (h : field.Regular)
    (hs : 4 * field.shape.handleCount ≤ field.elementSize) :
    4 * (field.shape.handleCount * field.length) ≤ field.size := by
  unfold FieldLayout.length
  cases ha : field.array with
  | none =>
    rw [Option.elim_none, Nat.mul_one, h.single ha]
    exact hs
  | some array =>
    rw [Option.elim_some, h.size_eq array ha, ← Nat.mul_assoc]
    exact Nat.mul_le_mul_right _ (Nat.le_trans hs (h.element_le array ha))

/-- Fields in order, from `cursor` on, have four bytes for each of their handles. -/
theorem four_handleCountAll_le {fields : List FieldLayout} {cursor size : Nat} (hle : cursor ≤ size)
    (hroom : ∀ field ∈ fields, 4 * field.handleCount ≤ field.size)
    (hstart : ∀ field ∈ fields, cursor ≤ field.offset)
    (horder : fields.Pairwise fun before after => before.finish ≤ after.offset)
    (hinside : ∀ field ∈ fields, field.finish ≤ size) :
    cursor + 4 * handleCountAll fields ≤ size := by
  induction fields generalizing cursor with
  | nil => simpa [handleCountAll] using hle
  | cons field rest ih =>
    obtain ⟨hfirst, horder⟩ := List.pairwise_cons.1 horder
    obtain ⟨hend, hinside⟩ := List.forall_mem_cons.1 hinside
    obtain ⟨hfour, hroom⟩ := List.forall_mem_cons.1 hroom
    have hat : cursor ≤ field.offset := hstart field List.mem_cons_self
    have hrest := ih hend hroom hfirst horder hinside
    have hcount : handleCountAll (field :: rest) ≤ field.handleCount + handleCountAll rest := by
      rw [handleCountAll]
      exact Nat.min_le_left _ _
    unfold FieldLayout.finish at hrest
    omega

/-- A layout has four bytes for each of its handles, so all of its counts have 32 bits. -/
theorem StructLayout.LaidOut.four_handleCount_le {layout : StructLayout} (h : layout.LaidOut) :
    (∀ field ∈ layout.fields, 4 * (field.shape.handleCount * field.length) ≤ field.size) ∧
      4 * layout.handleCount ≤ layout.size := by
  have hall := h.throughout
  clear h
  induction hall with
  | @intro layout self nested ih =>
    have hr := self.regular
    have hshape : ∀ field ∈ layout.fields, 4 * field.shape.handleCount ≤ field.elementSize := by
      intro field hm
      unfold FieldLayout.elementSize
      cases hs : field.shape with
      | base type => cases type <;> simp [FieldShape.handleCount, FieldShape.size, BaseType.isHandle,
          BaseType.size]
      | aggregate inner =>
        rw [FieldShape.handleCount]
        exact (ih field hm inner hs).2
    have hfields : ∀ field ∈ layout.fields,
        4 * (field.shape.handleCount * field.length) ≤ field.size :=
      fun field hm => (hr.field field hm).four_handleCount_le (hshape field hm)
    refine ⟨hfields, ?_⟩
    have hall := four_handleCountAll_le (Nat.zero_le layout.size)
      (fun field hm => Nat.le_trans (Nat.mul_le_mul_left 4 ?_) (hfields field hm))
      (fun field _ => Nat.zero_le field.offset) hr.in_order hr.inside
    · rw [layout.handleCount_eq]
      omega
    · rw [field.handleCount_eq]
      exact Nat.min_le_left _ _

theorem StructLayout.LaidOut.fits {layout : StructLayout} (h : layout.LaidOut) :
    Fits layout.size := by
  obtain ⟨inner, made⟩ := h
  exact (eq_exactLayout inner made).2.2.2

/-- The count of a field is not cut off. -/
theorem StructLayout.LaidOut.handleCount_field {layout : StructLayout} (h : layout.LaidOut)
    {field : FieldLayout} (hm : field ∈ layout.fields) :
    field.handleCount = field.shape.handleCount * field.length := by
  have hfour := h.four_handleCount_le.1 field hm
  have hend := h.regular.inside field hm
  have hfits := h.fits
  rw [field.handleCount_eq, boundedMul]
  unfold FieldLayout.finish at hend
  unfold Fits at hfits
  unfold limit
  omega

/-- Neither is the sum over the fields. -/
theorem StructLayout.LaidOut.handleCount_eq_sum {layout : StructLayout} (h : layout.LaidOut) :
    layout.handleCount = (layout.fields.map FieldLayout.handleCount).sum := by
  have hroom : ∀ field ∈ layout.fields, 4 * field.handleCount ≤ field.size := by
    intro field hm
    rw [h.handleCount_field hm]
    exact h.four_handleCount_le.1 field hm
  have hr := h.regular
  have horder := hr.in_order
  have hinside := hr.inside
  have hfits := h.fits
  rw [layout.handleCount_eq]
  generalize layout.fields = fields at hroom horder hinside
  generalize layout.size = size at hinside hfits
  induction fields with
  | nil => rfl
  | cons field rest ih =>
    obtain ⟨hfirst, horder⟩ := List.pairwise_cons.1 horder
    obtain ⟨hend, hinside⟩ := List.forall_mem_cons.1 hinside
    obtain ⟨hfour, hroom⟩ := List.forall_mem_cons.1 hroom
    have hrest := four_handleCountAll_le hend hroom hfirst horder hinside
    have hsum : field.handleCount + handleCountAll rest ≤ limit := by
      unfold FieldLayout.finish at hrest
      unfold Fits at hfits
      unfold limit
      omega
    rw [handleCountAll, boundedAdd, Nat.min_eq_left hsum, List.map_cons, List.sum_cons,
      ih hroom horder hinside]

/-! ## Counting on schemas -/

theorem handleCountOf_eq_sum (schemas : List FieldSchema) :
    handleCountOf schemas = (schemas.map FieldSchema.handleCount).sum := by
  induction schemas with
  | nil => rfl
  | cons schema rest ih => rw [handleCountOf, ih, List.map_cons, List.sum_cons]

/-- Schemas of laid out fields count what the fields do. -/
theorem StructLayout.LaidOut.handleCountOf_eq {layout : StructLayout} (h : layout.LaidOut)
    {schemas : List FieldSchema}
    (hs : schemas.map FieldSchema.handleCount = layout.fields.map FieldLayout.handleCount) :
    handleCountOf schemas = layout.handleCount := by
  rw [handleCountOf_eq_sum, hs, h.handleCount_eq_sum]

/-- No field of the schema, on any level, holds handles as values. -/
inductive TypeSchema.Kinded : TypeSchema → Prop
  | intro {schema : TypeSchema}
      (value : ∀ field ∈ schema.fields, ∀ type, field.kind = .value type → type.isHandle = false)
      (nested : ∀ field ∈ schema.fields, ∀ inner, field.kind = .aggregate inner → inner.Kinded) :
      TypeSchema.Kinded schema

/-- Fields of layouts become values or handles, by their types. -/
theorem TypeSchema.kinded_of_becomes {R : StructLayout → TypeSchema → Prop}
    (hr : ∀ inner built, R inner built → built.Kinded) {units : Table String Nat}
    {layouts : List FieldLayout} {schema : TypeSchema}
    (h : List.Forall₂ (FieldLayout.Becomes R units) layouts schema.fields) : schema.Kinded := by
  have hkinds : ∀ field ∈ schema.fields,
      (∀ type, field.kind = .value type → type.isHandle = false) ∧
        ∀ inner, field.kind = .aggregate inner → inner.Kinded := by
    refine forall_of_forall₂ h fun field _ schema hb => ?_
    have hkind := hb.kind
    generalize field.shape = shape at hkind
    generalize schema.kind = kind at hkind
    cases hkind with
    | handle handle => exact ⟨nofun, nofun⟩
    | value type hv => exact ⟨fun other he => FieldKind.value.inj he ▸ hv, nofun⟩
    | aggregate hbuilt =>
      exact ⟨nofun, fun inner he => FieldKind.aggregate.inj he ▸ hr _ _ hbuilt⟩
  exact .intro (fun field hm => (hkinds field hm).1) fun field hm => (hkinds field hm).2

/-- Schemas hold handles where they say so, whatever layouts they were built of. -/
theorem kinded_of_toSchema {scope : SchemaScope} {layouts : List StructLayout}
    {layout : StructLayout} {kept after : SchemaTable} {schema : TypeSchema}
    (hb : Built scope layouts kept) (h : layout.toSchema scope kept = .ok (schema, after)) :
    schema.Kinded := by
  have hstep : scope.Step (fun _ => True) fun _ schema => schema.Kinded :=
    fun layout identity units fields _ _ _ hfields =>
      TypeSchema.kinded_of_becomes (fun _ _ hk => hk) hfields
  have hall := StructLayout.throughout_of_forall fun _ => trivial
  exact (toSchema_induction hstep (hall layout) (hb.induction hstep fun other _ => hall other) h).1

/-- Every field with handles has a stretch of units below `max`, and no two fields share a unit. -/
structure TypeSchema.HasOwnUnits (max : Nat) (schema : TypeSchema) : Prop where
  given : ∀ field ∈ schema.fields, 0 < field.handleCount →
    ∃ first, field.unit = some first ∧ first + field.handleCount ≤ max
  apart : schema.fields.Pairwise fun field other => 0 < field.handleCount → 0 < other.handleCount →
    ∀ first ∈ field.unit, ∀ start ∈ other.unit,
      first + field.handleCount ≤ start ∨ start + other.handleCount ≤ first

/-- What is known of a built schema whose hash has `count` handles. -/
structure TypeSchema.Counted (max count : Nat) (schema : TypeSchema) : Prop where
  count_eq : schema.handleCount = count
  kinded : schema.Kinded
  units : schema.isUniformSet = true → (schema.fields.map FieldSchema.name).Nodup →
    schema.HasOwnUnits max

variable {max : Nat} {counts : String → Nat}

/-- A field keeps its count, where hashes know the counts of nested layouts. -/
theorem FieldLayout.Becomes.handleCount_eq {layout : StructLayout} (hl : layout.LaidOut)
    (hc : layout.DeterminedBy StructLayout.handleCount counts) {field : FieldLayout}
    (hm : field ∈ layout.fields) {units : Table String Nat} {schema : FieldSchema}
    (h : field.Becomes (fun inner built => built.Counted max (counts inner.contentHash)) units
      schema) : schema.handleCount = field.handleCount := by
  rw [schema.handleCount_eq, hl.handleCount_field hm]
  unfold FieldSchema.length FieldLayout.length
  rw [h.array]
  congr 1
  obtain ⟨-, hnested⟩ := hc
  have hinner := hnested field hm
  have hkind := h.kind
  generalize field.shape = shape at hkind hinner
  generalize schema.kind = kind at hkind
  cases hkind with
  | handle handle => rfl
  | value type hv =>
    rw [FieldKind.handleCount, FieldShape.handleCount, hv]
    rfl
  | @aggregate inner built hbuilt =>
    rw [FieldKind.handleCount, FieldShape.handleCount, hbuilt.count_eq]
    exact (hinner inner rfl).head.symm

/-- A step counts, and gives free uniforms units of their own. -/
theorem counted_step (scope : SchemaScope) (counts : String → Nat) :
    scope.Step (fun layout => layout.LaidOut ∧ layout.DeterminedBy StructLayout.handleCount counts)
      fun hash schema => schema.Counted scope.maxTextureUnits (counts hash) := by
  rintro layout identity units fields ⟨hl, hc⟩ - hunits hfields
  have hcounts : ∀ field ∈ layout.fields, ∀ schema, field.Becomes (fun inner built =>
      built.Counted scope.maxTextureUnits (counts inner.contentHash)) units schema →
        schema.handleCount = field.handleCount := fun field hm schema hb =>
    hb.handleCount_eq hl hc hm
  refine ⟨?_, TypeSchema.kinded_of_becomes (fun _ _ => TypeSchema.Counted.kinded) hfields, fun hset hnodup => ?_⟩
  · rw [← hc.head, TypeSchema.handleCount]
    exact hl.handleCountOf_eq (map_eq_of_forall₂ hfields hcounts)
  · have hnames : fields.map FieldSchema.name = layout.fields.map FieldLayout.name :=
      map_eq_of_forall₂ hfields fun _ _ _ hb => hb.name
    have hkind : layout.kind = .uniformSet := eq_of_beq hset
    unfold SchemaScope.unitsOf at hunits
    rw [if_pos hkind] at hunits
    have hassign : assignTextureUnits layout.fields scope.maxTextureUnits = .ok units := by
      cases hassign : assignTextureUnits layout.fields scope.maxTextureUnits with
      | error cause =>
        rw [hassign] at hunits
        cases hunits
      | ok firsts =>
        rw [hassign] at hunits
        exact congrArg Except.ok (Except.ok.inj hunits)
    rw [hnames] at hnodup
    have hown := apart_of_assignTextureUnits hnodup hassign
    have hdistinct : layout.fields.Pairwise fun field other =>
        field ∈ layout.fields ∧ other ∈ layout.fields ∧ field.name ≠ other.name :=
      (List.pairwise_map.1 hnodup).imp_of_mem fun hm ho hne => ⟨hm, ho, hne⟩
    refine ⟨forall_of_forall₂ hfields fun field hm schema hb hpos => ?_,
      pairwise_of_forall₂ hfields hdistinct ?_⟩
    · rw [hcounts field hm schema hb] at hpos ⊢
      rw [hb.unit]
      exact hown.given field hm hpos
    · rintro field other schema next hb hb' ⟨hm, ho, hne⟩
      rw [hcounts field hm schema hb, hcounts other ho next hb', hb.unit, hb'.unit]
      exact hown.apart field hm other ho hne

/-- **Counts and units.** A built schema has as many handles as its layout, and as a set of free
uniforms with different names it has units of their own for all of them. -/
theorem counted_of_toSchema {scope : SchemaScope} {layouts : List StructLayout}
    {layout : StructLayout} {kept after : SchemaTable} {schema : TypeSchema}
    (hb : Built scope layouts kept) (h : layout.toSchema scope kept = .ok (schema, after))
    (hl : ∀ other ∈ layout :: layouts, other.LaidOut)
    (hc : ∀ other ∈ layout :: layouts, other.DeterminedBy StructLayout.handleCount counts) :
    schema.Counted scope.maxTextureUnits layout.handleCount := by
  have hp : ∀ other ∈ layout :: layouts, other.Throughout fun inner =>
      inner.LaidOut ∧ inner.DeterminedBy StructLayout.handleCount counts := by
    intro other hm
    exact (hl other hm).throughout.and (hc other hm).throughout
  obtain ⟨hlayout, hrest⟩ := List.forall_mem_cons.1 hp
  have hstep := counted_step scope counts
  rw [(hc layout List.mem_cons_self).head]
  exact (toSchema_induction hstep hlayout (hb.induction hstep hrest) h).1

/-! ## The units of all leaves -/

/-- A field without units holds no handles. -/
theorem FieldSchema.handleCount_eq_zero {field : FieldSchema}
    (h : 0 < field.handleCount → ∃ first, field.unit = some first ∧ first + field.handleCount ≤ max)
    (hu : field.unit = none) : field.handleCount = 0 := by
  by_contra hne
  obtain ⟨first, hfirst, -⟩ := h (Nat.pos_of_ne_zero hne)
  rw [hu] at hfirst
  cases hfirst

namespace TypeSchema

/-- The units of the leaves that hold handles, in declaration order: each field has the units from its
first one on. -/
def leafUnits (schema : TypeSchema) : List Nat :=
  schema.fields.flatMap fun field => List.range' (field.unit.getD 0) field.handleCount

variable {schema : TypeSchema}

theorem HasOwnUnits.lt (h : schema.HasOwnUnits max) {unit : Nat} (hm : unit ∈ schema.leafUnits) :
    unit < max := by
  obtain ⟨field, hf, hu⟩ := List.mem_flatMap.1 hm
  obtain ⟨hle, hlt⟩ := List.mem_range'_1.1 hu
  obtain ⟨first, hfirst, hmax⟩ := h.given field hf (by omega)
  rw [hfirst, Option.getD_some] at hlt
  exact Nat.lt_of_lt_of_le hlt hmax

/-- No unit belongs to two leaves. -/
theorem HasOwnUnits.nodup (h : schema.HasOwnUnits max) : schema.leafUnits.Nodup := by
  refine List.nodup_flatMap.2 ⟨fun field _ => List.nodup_range', ?_⟩
  refine h.apart.imp_of_mem fun {field other} hf ho hapart => ?_
  refine List.disjoint_left.2 fun unit hu hu' => ?_
  obtain ⟨hle, hlt⟩ := List.mem_range'_1.1 hu
  obtain ⟨hle', hlt'⟩ := List.mem_range'_1.1 hu'
  obtain ⟨first, hfirst, -⟩ := h.given field hf (by omega)
  obtain ⟨start, hstart, -⟩ := h.given other ho (by omega)
  rw [hfirst, Option.getD_some] at hle hlt
  rw [hstart, Option.getD_some] at hle' hlt'
  rcases hapart (by omega) (by omega) first hfirst start hstart with hbefore | hbehind
  · omega
  · omega

end TypeSchema

/-! ## Who owns units -/

mutual

/-- Every type nested in the schema, on any level, is a plain struct. -/
def TypeSchema.nestsStructs : TypeSchema → Bool
  | { fields, .. } => nestStructs fields

def nestStructs : List FieldSchema → Bool
  | [] => true
  | field :: rest => field.nestsStructs && nestStructs rest

def FieldSchema.nestsStructs : FieldSchema → Bool
  | { kind, .. } => kind.nestsStructs

def FieldKind.nestsStructs : FieldKind → Bool
  | .aggregate schema => schema.kind == .struct && schema.nestsStructs
  | _ => true

end

theorem FieldSchema.nestsStructs_inner {field : FieldSchema} (h : field.nestsStructs = true)
    {inner : TypeSchema} (hk : field.kind = .aggregate inner) :
    inner.kind = .struct ∧ inner.nestsStructs = true := by
  obtain ⟨name, typeName, kind, offset, size, array, location, unit⟩ := field
  obtain rfl : kind = .aggregate inner := hk
  rwa [FieldSchema.nestsStructs, FieldKind.nestsStructs, Bool.and_eq_true, beq_iff_eq] at h

theorem nestsStructs_of_nestStructs {fields : List FieldSchema} (h : nestStructs fields = true) :
    ∀ field ∈ fields, field.nestsStructs = true := by
  induction fields with
  | nil => simp
  | cons field rest ih =>
    rw [nestStructs, Bool.and_eq_true] at h
    exact List.forall_mem_cons.2 ⟨h.1, ih h.2⟩

theorem TypeSchema.nestsStructs_inner {schema : TypeSchema} (h : schema.nestsStructs = true) :
    ∀ field ∈ schema.fields, ∀ inner, field.kind = .aggregate inner →
      inner.kind = .struct ∧ inner.nestsStructs = true := by
  obtain ⟨identity, kind, size, alignment, fields⟩ := schema
  rw [TypeSchema.nestsStructs] at h
  exact fun field hm inner => FieldSchema.nestsStructs_inner (nestsStructs_of_nestStructs h field hm)

/-- On all levels, the property holds of the fields of every type that is no set of free uniforms. -/
inductive TypeSchema.OutsideSets (p : FieldSchema → Prop) : TypeSchema → Prop
  | intro {schema : TypeSchema}
      (own : schema.isUniformSet = false → ∀ field ∈ schema.fields, p field)
      (nested : ∀ field ∈ schema.fields, ∀ inner, field.kind = .aggregate inner →
        inner.OutsideSets p) : TypeSchema.OutsideSets p schema

theorem TypeSchema.outsideSets_of_becomes {p : FieldSchema → Prop}
    {R : StructLayout → TypeSchema → Prop}
    (hr : ∀ inner built, R inner built → built.OutsideSets p) {units : Table String Nat}
    {layouts : List FieldLayout} {schema : TypeSchema}
    (h : List.Forall₂ (FieldLayout.Becomes R units) layouts schema.fields)
    (hp : schema.isUniformSet = false → ∀ field ∈ schema.fields, p field) :
    schema.OutsideSets p := by
  refine .intro hp (forall_of_forall₂ h fun field _ schema hb inner hi => ?_)
  have hkind := hb.kind
  rw [hi] at hkind
  generalize field.shape = shape at hkind
  cases hkind with
  | aggregate hbuilt => exact hr _ _ hbuilt

/-- A built schema gives units to the fields of sets only. -/
theorem unit_outsideSets_of_toSchema {scope : SchemaScope} {layouts : List StructLayout}
    {layout : StructLayout} {kept after : SchemaTable} {schema : TypeSchema}
    (hb : Built scope layouts kept) (h : layout.toSchema scope kept = .ok (schema, after)) :
    schema.OutsideSets fun field => field.unit = none := by
  have hstep : scope.Step (fun _ => True) fun _ schema =>
      schema.OutsideSets fun field => field.unit = none := by
    intro layout identity units fields _ _ hunits hfields
    refine TypeSchema.outsideSets_of_becomes (fun _ _ hr => hr) hfields fun hset => ?_
    have hkind : layout.kind ≠ .uniformSet := fun hk => by
      rw [TypeSchema.isUniformSet, hk] at hset
      cases hset
    unfold SchemaScope.unitsOf at hunits
    rw [if_neg hkind] at hunits
    obtain rfl := Except.ok.inj hunits
    exact forall_of_forall₂ hfields fun _ _ _ hb => hb.unit
  have hall := StructLayout.throughout_of_forall fun _ => trivial
  exact (toSchema_induction hstep (hall layout) (hb.induction hstep fun other _ => hall other) h).1

/-- A struct whose fields have no units of their own, and in which only such structs are nested. -/
inductive TypeSchema.Bare : TypeSchema → Prop
  | intro {schema : TypeSchema} (kind : schema.kind = .struct)
      (own : ∀ field ∈ schema.fields, field.unit = none)
      (nested : ∀ field ∈ schema.fields, ∀ inner, field.kind = .aggregate inner → inner.Bare) :
      TypeSchema.Bare schema

theorem TypeSchema.OutsideSets.bare {schema : TypeSchema}
    (h : schema.OutsideSets fun field => field.unit = none) (hk : schema.kind = .struct)
    (hs : schema.nestsStructs = true) : schema.Bare := by
  induction h with
  | @intro schema own nested ih =>
    have hset : schema.isUniformSet = false := by
      rw [isUniformSet, hk]
      rfl
    refine .intro hk (own hset) fun field hm inner hi => ?_
    obtain ⟨hkind, hnests⟩ := schema.nestsStructs_inner hs field hm inner hi
    exact ih field hm inner hi hkind hnests

/-! ## What generated wrappers compute -/

/-- The unit that a leaf has in the plain data of a generated wrapper, and the unit under which its
handle is registered. -/
structure LeafUnit where
  stored : Option Nat
  registered : Option Nat

def LeafUnit.both (unit : Nat) : LeafUnit := ⟨some unit, some unit⟩

namespace FieldPlan

/-- The unit that a wrapper gives an element of the field, or hands on to the instance there. Its
constructor does so, or `bind_texture_units` where this is called with `first`. -/
def givenUnit? (plan : FieldPlan) (first : Option Nat) (element : Nat) : Option Nat :=
  let step? := if first.isSome then plan.bindStep? else plan.initialStep?
  step?.bind fun step => step.unit.value? first element

def leafUnit (plan : FieldPlan) (bindsUnits : Bool) (first : Option Nat) (element : Nat) :
    LeafUnit where
  stored := plan.givenUnit? first element
  registered := (plan.registeredUnit? bindsUnits).bind fun unit => unit.value? first element

end FieldPlan

mutual

/-- The leaves below a generated wrapper, in declaration order, with the units that the code of the
wrappers computes. `first` is the unit that `bind_texture_units` was called with, if it was called; a
wrapper without this method is as it was constructed. -/
def TypeSchema.wrapperLeaves (first : Option Nat) : TypeSchema → List LeafUnit
  | ⟨identity, kind, size, alignment, fields⟩ =>
    let schema : TypeSchema := ⟨identity, kind, size, alignment, fields⟩
    let first := if schema.bindsUnits then first else none
    fieldLeaves schema.bindsUnits first schema.plans fields

def fieldLeaves (bindsUnits : Bool) (first : Option Nat) :
    List FieldPlan → List FieldSchema → List LeafUnit
  | plan :: plans, field :: fields =>
    field.wrapperLeaves bindsUnits first plan ++ fieldLeaves bindsUnits first plans fields
  | _, _ => []

def FieldSchema.wrapperLeaves (bindsUnits : Bool) (first : Option Nat) (plan : FieldPlan) :
    FieldSchema → List LeafUnit
  | { kind, array, .. } => kind.wrapperLeaves bindsUnits first plan (array.elim 1 ArrayLayout.length)

def FieldKind.wrapperLeaves (bindsUnits : Bool) (first : Option Nat) (plan : FieldPlan)
    (length : Nat) : FieldKind → List LeafUnit
  | .value _ => []
  | .handle _ => (List.range length).map (plan.leafUnit bindsUnits first)
  | .aggregate schema =>
    (List.range length).flatMap fun i => schema.wrapperLeaves (plan.givenUnit? first i)

end

theorem FieldSchema.wrapperLeaves_def (bindsUnits : Bool) (first : Option Nat) (plan : FieldPlan)
    (field : FieldSchema) : field.wrapperLeaves bindsUnits first plan =
      field.kind.wrapperLeaves bindsUnits first plan field.length := by
  cases field
  rw [FieldSchema.wrapperLeaves]
  rfl

mutual

/-- There are as many leaves as handles, whatever units they have. -/
theorem TypeSchema.length_wrapperLeaves : ∀ (schema : TypeSchema) (first : Option Nat),
    (schema.wrapperLeaves first).length = schema.handleCount
  | ⟨identity, kind, size, alignment, fields⟩, first => by
    rw [TypeSchema.wrapperLeaves, TypeSchema.handleCount]
    exact length_fieldLeaves fields _ _ _ _ _

theorem length_fieldLeaves : ∀ (fields : List FieldSchema) (bindsUnits : Bool)
    (first : Option Nat) (owner : String) (state : PlanState) (index : Nat),
    (fieldLeaves bindsUnits first (planFrom owner state index fields) fields).length =
      handleCountOf fields
  | [], _, _, _, _, _ => by simp [fieldLeaves, handleCountOf]
  | field :: rest, bindsUnits, first, owner, state, index => by
    rw [planFrom, fieldLeaves, List.length_append, field.length_wrapperLeaves,
      length_fieldLeaves rest, handleCountOf]

theorem FieldSchema.length_wrapperLeaves : ∀ (field : FieldSchema) (bindsUnits : Bool)
    (first : Option Nat) (plan : FieldPlan),
    (field.wrapperLeaves bindsUnits first plan).length = field.handleCount
  | ⟨_, _, kind, _, _, array, _, _⟩, bindsUnits, first, plan => by
    rw [FieldSchema.wrapperLeaves, FieldSchema.handleCount, kind.length_wrapperLeaves]

theorem FieldKind.length_wrapperLeaves : ∀ (kind : FieldKind) (bindsUnits : Bool)
    (first : Option Nat) (plan : FieldPlan) (length : Nat),
    (kind.wrapperLeaves bindsUnits first plan length).length = kind.handleCount * length
  | .value _, _, _, _, length => by simp [FieldKind.wrapperLeaves, FieldKind.handleCount]
  | .handle _, _, _, _, length => by simp [FieldKind.wrapperLeaves, FieldKind.handleCount]
  | .aggregate schema, _, _, plan, length => by
    rw [FieldKind.wrapperLeaves, FieldKind.handleCount, List.length_flatMap]
    simp [schema.length_wrapperLeaves, Nat.mul_comm]

end

/-- Stretches of one length that follow each other make one stretch. -/
theorem flatMap_range' (first count length : Nat) :
    (List.range length).flatMap (fun i => List.range' (first + i * count) count) =
      List.range' first (count * length) := by
  induction length with
  | zero => rfl
  | succ length ih =>
    rw [List.range_succ, List.flatMap_append, ih, List.flatMap_singleton, Nat.mul_succ,
      Nat.mul_comm length, List.range'_append_1]

namespace FieldPlan

variable {plan : FieldPlan} {first element : Nat}

theorem handleCount_ne_zero (hpos : 0 < plan.field.kind.handleCount)
    (hlt : element < plan.field.length) : plan.field.handleCount ≠ 0 := by
  rw [plan.field.handleCount_eq]
  exact Nat.ne_of_gt (Nat.mul_pos hpos (Nat.zero_lt_of_lt hlt))

/-- A field of a free uniform counts its handles from its own unit on. -/
theorem leafUnit_own {kind : HandleKind} (hk : plan.field.kind = .handle kind)
    (hu : plan.field.unit = some first) (hlt : element < plan.field.length) (bindsUnits : Bool) :
    plan.leafUnit bindsUnits none element = .both (first + element) := by
  have hvalue (name type : String) :
      (plan.elementUnit (.number first) name type).value? none element = some (first + element) :=
    plan.value?_elementUnit rfl hlt name type
  simp [leafUnit, givenUnit?, initialStep?, registeredUnit?, hk, hu, hvalue, LeafUnit.both]

/-- The wrapper of a struct counts them from its first unit on. -/
theorem leafUnit_bound {kind : HandleKind} (hk : plan.field.kind = .handle kind)
    (hu : plan.field.unit = none) (hlt : element < plan.field.length) :
    plan.leafUnit true (some first) element = .both (first + plan.unitOffset + element) := by
  have hne : plan.field.handleCount ≠ 0 :=
    handleCount_ne_zero (by simp [hk, FieldKind.handleCount]) hlt
  have hvalue (name : String) := plan.value?_elementUnit (plan.value?_start first) hlt name "u32"
  simp [leafUnit, givenUnit?, bindStep?, registeredUnit?, hk, hu, hne, UnitExpr.value?, hvalue,
    LeafUnit.both]

theorem givenUnit?_own {inner : TypeSchema} (hk : plan.field.kind = .aggregate inner)
    (hu : plan.field.unit = some first) (hlt : element < plan.field.length) :
    plan.givenUnit? none element = some (first + element * inner.handleCount) := by
  have hvalue : (plan.childUnit inner (.number first)).value? none element =
      some (first + element * inner.handleCount) := plan.value?_childUnit rfl hlt inner
  simp [givenUnit?, initialStep?, hk, hu, hvalue]

theorem givenUnit?_bound {inner : TypeSchema} (hk : plan.field.kind = .aggregate inner)
    (hpos : 0 < inner.handleCount) (hlt : element < plan.field.length) :
    plan.givenUnit? (some first) element =
      some (first + plan.unitOffset + element * inner.handleCount) := by
  have hne : plan.field.handleCount ≠ 0 :=
    handleCount_ne_zero (by simpa [hk, FieldKind.handleCount] using hpos) hlt
  have hvalue := plan.value?_childUnit (plan.value?_start first) hlt inner
  simp [givenUnit?, bindStep?, hk, hne, hvalue]

end FieldPlan

/-- Leaves with the units from `first` on. -/
def leavesFrom (first count : Nat) : List LeafUnit := (List.range' first count).map .both

/-- Where there are no handles, there are no leaves. -/
theorem TypeSchema.wrapperLeaves_of_handleCount_eq_zero {schema : TypeSchema}
    (hz : schema.handleCount = 0) (given : Option Nat) (first : Nat) :
    schema.wrapperLeaves given = leavesFrom first schema.handleCount := by
  rw [hz, List.length_eq_zero_iff.1 ((schema.length_wrapperLeaves given).trans hz)]
  rfl

/-- The leaves of a field, from those of its elements. -/
theorem FieldSchema.wrapperLeaves_eq {field : FieldSchema} {plan : FieldPlan} {bindsUnits : Bool}
    {given : Option Nat} {first : Nat}
    (hleaf : ∀ kind, field.kind = .handle kind → ∀ i < field.length,
      plan.leafUnit bindsUnits given i = .both (first + i))
    (hchild : ∀ inner, field.kind = .aggregate inner → ∀ i < field.length,
      inner.wrapperLeaves (plan.givenUnit? given i) =
        leavesFrom (first + i * inner.handleCount) inner.handleCount) :
    field.wrapperLeaves bindsUnits given plan = leavesFrom first field.handleCount := by
  rw [field.wrapperLeaves_def, field.handleCount_eq]
  cases hk : field.kind with
  | value type =>
    rw [FieldKind.wrapperLeaves, FieldKind.handleCount, Nat.zero_mul]
    rfl
  | handle kind =>
    rw [FieldKind.wrapperLeaves, FieldKind.handleCount, Nat.one_mul, leavesFrom,
      List.range'_eq_map_range, List.map_map]
    exact List.map_congr_left fun i hi => hleaf kind hk i (List.mem_range.1 hi)
  | aggregate inner =>
    rw [FieldKind.wrapperLeaves, FieldKind.handleCount, leavesFrom, ← flatMap_range',
      List.map_flatMap]
    exact List.flatMap_congr fun i hi => hchild inner hk i (List.mem_range.1 hi)

/-- The offsets of a plan lead from field to field. -/
theorem fieldLeaves_bound {owner : String} {first : Nat} {fields : List FieldSchema}
    (h : ∀ field ∈ fields, ∀ plan : FieldPlan, plan.field = field →
      field.wrapperLeaves true (some first) plan =
        leavesFrom (first + plan.unitOffset) field.handleCount)
    (state : PlanState) (index : Nat) :
    fieldLeaves true (some first) (planFrom owner state index fields) fields =
      leavesFrom (first + state.unitOffset) (handleCountOf fields) := by
  induction fields generalizing state index with
  | nil => simp [fieldLeaves, handleCountOf, leavesFrom]
  | cons field rest ih =>
    obtain ⟨hfield, hrest⟩ := List.forall_mem_cons.1 h
    rw [planFrom, fieldLeaves, hfield _ rfl, ih hrest, handleCountOf]
    dsimp only [leavesFrom]
    rw [← Nat.add_assoc, ← List.map_append, List.range'_append_1]

/-- The wrapper of a struct has the units from its first one on. -/
theorem TypeSchema.Bare.wrapperLeaves_eq {schema : TypeSchema} (h : schema.Bare) (first : Nat) :
    schema.wrapperLeaves (some first) = leavesFrom first schema.handleCount := by
  induction h generalizing first with
  | @intro schema kind own nested ih =>
    rcases Nat.eq_zero_or_pos schema.handleCount with hz | hpos
    · exact schema.wrapperLeaves_of_handleCount_eq_zero hz _ _
    have hbinds : schema.bindsUnits = true := by
      rw [bindsUnits, isUniformSet, kind]
      simpa using hpos
    obtain ⟨identity, kind, size, alignment, fields⟩ := schema
    rw [wrapperLeaves, handleCount]
    dsimp only at own ih ⊢
    rw [hbinds, if_pos rfl]
    refine fieldLeaves_bound (fun field hm plan hp => ?_) {} 0
    subst hp
    refine FieldSchema.wrapperLeaves_eq (fun handle hk i hi => ?_) fun inner hk i hi => ?_
    · exact FieldPlan.leafUnit_bound hk (own _ hm) hi
    · rcases Nat.eq_zero_or_pos inner.handleCount with hz | hpos
      · exact inner.wrapperLeaves_of_handleCount_eq_zero hz _ _
      · rw [FieldPlan.givenUnit?_bound hk hpos hi]
        exact ih _ hm inner hk _

theorem fieldLeaves_own {owner : String} {bindsUnits : Bool} {fields : List FieldSchema}
    (h : ∀ field ∈ fields, ∀ plan : FieldPlan, plan.field = field →
      field.wrapperLeaves bindsUnits none plan = leavesFrom (field.unit.getD 0) field.handleCount)
    (state : PlanState) (index : Nat) :
    fieldLeaves bindsUnits none (planFrom owner state index fields) fields =
      fields.flatMap fun field => leavesFrom (field.unit.getD 0) field.handleCount := by
  induction fields generalizing state index with
  | nil => simp [fieldLeaves]
  | cons field rest ih =>
    obtain ⟨hfield, hrest⟩ := List.forall_mem_cons.1 h
    rw [planFrom, fieldLeaves, hfield _ rfl, ih hrest, List.flatMap_cons]

/-- **Wrappers.** The code of the wrapper of a set of free uniforms, and that of the wrappers below it,
computes for each leaf the unit that the leaf has. -/
theorem TypeSchema.wrapperLeaves_eq {schema : TypeSchema}
    (ho : schema.OutsideSets fun field => field.unit = none)
    (hs : schema.nestsStructs = true) (hu : schema.HasOwnUnits max) :
    schema.wrapperLeaves none = schema.leafUnits.map .both := by
  obtain ⟨-, howned⟩ := ho
  have hinner := schema.nestsStructs_inner hs
  have hgiven := hu.given
  rw [leafUnits, List.map_flatMap]
  obtain ⟨identity, kind, size, alignment, fields⟩ := schema
  rw [wrapperLeaves, ite_self]
  refine fieldLeaves_own (fun field hm plan hp => ?_) {} 0
  subst hp
  cases hunit : plan.field.unit with
  | none =>
    have hz := FieldSchema.handleCount_eq_zero (hgiven _ hm) hunit
    rw [List.length_eq_zero_iff.1 ((plan.field.length_wrapperLeaves _ _ _).trans hz), hz]
    rfl
  | some first =>
    refine FieldSchema.wrapperLeaves_eq (fun handle hk i hi => ?_) fun inner hk i hi => ?_
    · exact FieldPlan.leafUnit_own hk hunit hi _
    · obtain ⟨hkind, hnests⟩ := hinner _ hm inner hk
      rw [FieldPlan.givenUnit?_own hk hunit hi]
      exact ((howned _ hm inner hk).bare hkind hnests).wrapperLeaves_eq _

end UniformLayout
