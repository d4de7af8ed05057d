import UniformLayout.Compilation
import UniformLayout.Proofs.Layout.Refinement
import UniformLayout.Proofs.Lists
import UniformLayout.Proofs.Schema.Built

/-!
# Where schemas place fields and elements

The schemas of laid out aggregates say of their fields what the layouts say: offsets and strides are
aligned, elements do not overlap, and the fields lie one behind the other inside the aggregate, on
each level of nesting (`TypeSchema.Regular`). A field of aggregate type may show the schema of another
layout with the same content hash; for its place it is enough that both have one size.

Main statement: `regular_of_toSchema`.
-/

namespace UniformLayout

/-! ## Base types that have a name -/

theorem mem_of_dimension {name : List Char} {n : Nat} (h : BaseType.dimension? name = some n) :
    n ∈ [2, 3, 4] := by
  unfold BaseType.dimension? at h
  split at h
  · obtain rfl := Option.some.inj h
    decide
  · obtain rfl := Option.some.inj h
    decide
  · obtain rfl := Option.some.inj h
    decide
  · cases h

theorem rows_of_matrixOfName {name : List Char} {kind : ScalarKind} {columns rows : Nat}
    (h : BaseType.matrixOfName? name = some (.matrix kind columns rows)) : rows ∈ [2, 3, 4] := by
  unfold BaseType.matrixOfName? at h
  dsimp only at h
  split at h
  · obtain ⟨c, -, h⟩ := Option.bind_eq_some_iff.1 h
    obtain ⟨r, hr, h⟩ := Option.bind_eq_some_iff.1 h
    obtain ⟨-, -, rfl⟩ := BaseType.matrix.inj (Option.some.inj h)
    exact mem_of_dimension hr
  · obtain ⟨n, hn, h⟩ := Option.map_eq_some_iff.1 h
    obtain ⟨-, -, rfl⟩ := BaseType.matrix.inj h
    exact mem_of_dimension hn
  · cases h

/-- Matrices that can be named have two to four rows. -/
theorem rows_of_ofName {name : String} {kind : ScalarKind} {columns rows : Nat}
    (h : BaseType.ofName? name = some (.matrix kind columns rows)) : rows ∈ [2, 3, 4] := by
  unfold BaseType.ofName? at h
  dsimp only at h
  rcases Option.or_eq_some_iff.1 h with h | ⟨-, h⟩
  · obtain ⟨scalar, -, h⟩ := Option.map_eq_some_iff.1 h
    cases h
  · rcases Option.or_eq_some_iff.1 h with h | ⟨-, h⟩
    · unfold BaseType.vectorOfName? at h
      dsimp only at h
      split at h
      · obtain ⟨n, -, h⟩ := Option.map_eq_some_iff.1 h
        cases h
      · cases h
    · rcases Option.or_eq_some_iff.1 h with h | ⟨-, h⟩
      · exact rows_of_matrixOfName h
      · obtain ⟨handle, -, h⟩ := Option.map_eq_some_iff.1 h
        cases h

/-- The base types in a layout have names. -/
theorem StructLayout.LaidOut.named {layout : StructLayout} (h : layout.LaidOut) :
    ∀ field ∈ layout.fields, ∀ type, field.shape = .base type →
      ∃ name, BaseType.ofName? name = some type := by
  intro placed hm type hs
  obtain ⟨inner, made⟩ := h
  obtain ⟨hc, rfl, -, -⟩ := eq_exactLayout inner made
  obtain ⟨field, hf, from_, -, rfl⟩ := mem_exactFields hm
  change field.shapeIn _ = _ at hs
  unfold FieldDeclaration.shapeIn at hs
  cases hb : field.baseType? with
  | some found =>
    rw [hb] at hs
    obtain rfl := FieldShape.base.inj hs
    exact ⟨field.typeName, hb⟩
  | none =>
    obtain ⟨below, hl⟩ := Option.isSome_iff_exists.1 (hc field hf hb)
    rw [hb, hl] at hs
    cases hs

/-! ## Regular schemas -/

/-- The alignment that a place of the kind has at least. -/
def FieldKind.alignment : FieldKind → Nat
  | .value type => type.alignment
  | .handle _ => 4
  | .aggregate _ => minAlignment

def FieldSchema.finish (field : FieldSchema) : Nat := field.offset + field.size

/-- The field and its elements are aligned, and the elements do not overlap. -/
structure FieldSchema.Regular (field : FieldSchema) : Prop where
  isValue : ∀ type, field.kind = .value type → type.isHandle = false
  rows : ∀ kind columns rows, field.kind = .value (.matrix kind columns rows) → rows ∈ [2, 3, 4]
  offset_dvd : field.kind.alignment ∣ field.offset
  single : field.array = none → field.size = field.elementSize
  stride_dvd : ∀ array, field.array = some array → minAlignment ∣ array.stride
  element_le : ∀ array, field.array = some array → field.elementSize ≤ array.stride
  size_eq : ∀ array, field.array = some array → field.size = array.stride * array.length

/-- The fields are regular, stand in order inside the aggregate, and so do those of the aggregates
nested in it. -/
inductive TypeSchema.Regular : TypeSchema → Prop
  | intro {schema : TypeSchema} (size_dvd : minAlignment ∣ schema.size)
      (field : ∀ field ∈ schema.fields, field.Regular)
      (inside : ∀ field ∈ schema.fields, field.finish ≤ schema.size)
      (in_order : schema.fields.Pairwise fun before after => before.finish ≤ after.offset)
      (nested : ∀ field ∈ schema.fields, ∀ inner, field.kind = .aggregate inner → inner.Regular) :
      TypeSchema.Regular schema

namespace FieldSchema

variable (field : FieldSchema)

theorem elementSize_of_value {type : BaseType} (h : field.kind = .value type) :
    field.elementSize = type.size := by
  rw [elementSize, h]

theorem elementSize_of_handle {kind : HandleKind} (h : field.kind = .handle kind) :
    field.elementSize = 4 := by
  rw [elementSize, h]

theorem elementSize_of_aggregate {inner : TypeSchema} (h : field.kind = .aggregate inner) :
    field.elementSize = inner.size := by
  rw [elementSize, h]

end FieldSchema

namespace FieldSchema.Regular

variable {field : FieldSchema}

/-- Elements other than the first one are there only where the stride holds one. -/
theorem elementSize_le_stride (h : field.Regular) (hl : 1 < field.length) :
    field.elementSize ≤ field.stride := by
  unfold FieldSchema.length at hl
  unfold FieldSchema.stride
  cases ha : field.array with
  | none =>
    rw [ha] at hl
    exact absurd hl (by decide)
  | some array => exact h.element_le array ha

/-- Every element ends inside the field. -/
theorem element_inside (h : field.Regular) {index : Nat} (hi : index < field.length) :
    index * field.stride + field.elementSize ≤ field.size := by
  unfold FieldSchema.length at hi
  unfold FieldSchema.stride
  cases ha : field.array with
  | none =>
    have := h.single ha
    simp only [Option.elim_none]
    omega
  | some array =>
    have hle := h.element_le array ha
    rw [ha, Option.elim_some] at hi
    have hmul : (index + 1) * array.stride ≤ array.length * array.stride :=
      Nat.mul_le_mul_right _ hi
    rw [Nat.add_mul, Nat.one_mul, Nat.mul_comm array.length] at hmul
    rw [h.size_eq array ha]
    simp only [Option.elim_some]
    omega

theorem elements_inside (h : field.Regular) (base : Nat) :
    ∀ index < field.length, base + index * field.stride + field.elementSize ≤ base + field.size := by
  intro index hi
  have := h.element_inside hi
  omega

end FieldSchema.Regular

theorem minAlignment_dvd {alignment : Nat} (h : alignment = 16 ∨ alignment = 32) :
    minAlignment ∣ alignment := by
  rcases h with rfl | rfl
  · decide
  · decide

/-- The stride of an array is a multiple of `minAlignment`, whatever its alignment. -/
theorem minAlignment_dvd_stride {layout : StructLayout} (h : layout.LaidOut) {field : FieldLayout}
    (hm : field ∈ layout.fields) {array : ArrayLayout} (ha : field.array = some array) :
    minAlignment ∣ array.stride := by
  obtain ⟨inner, made⟩ := h
  obtain ⟨-, rfl, -, -⟩ := eq_exactLayout inner made
  obtain ⟨decl, -, from_, -, rfl⟩ := mem_exactFields hm
  obtain ⟨length, -, rfl⟩ := Option.map_eq_some_iff.1 ha
  exact roundUp_dvd _ (by decide)

variable {sizes : String → Nat} {layout : StructLayout}

/-- A field of a laid out aggregate becomes a regular one, as long as its elements keep their
size. -/
theorem FieldLayout.Becomes.regular (hl : layout.LaidOut) {field : FieldLayout}
    (hm : field ∈ layout.fields)
    {R : StructLayout → TypeSchema → Prop} {units : Table String Nat} {schema : FieldSchema}
    (h : field.Becomes R units schema)
    (hsize : ∀ inner built, field.shape = .aggregate inner → R inner built →
      built.size = inner.size) :
    schema.Regular := by
  have hr := hl.regular.field field hm
  have hoffset : field.shape.alignment ∣ schema.offset := by
    rw [h.offset]
    exact Nat.dvd_trans hr.shape_dvd hr.offset_dvd
  have hmid : (∀ type, schema.kind = .value type → type.isHandle = false) ∧
      (∀ kind columns rows, schema.kind = .value (.matrix kind columns rows) → rows ∈ [2, 3, 4]) ∧
      schema.kind.alignment ∣ schema.offset ∧ schema.elementSize = field.elementSize := by
    unfold FieldSchema.elementSize FieldLayout.elementSize
    have hkind := h.kind
    cases hs : field.shape with
    | base type =>
      rw [hs] at hkind hoffset
      generalize schema.kind = kind at hkind ⊢
      cases hkind with
      | handle handle =>
        refine ⟨?_, ?_, hoffset, rfl⟩
        · intro type he
          cases he
        · intro _ _ _ he
          cases he
      | value _ hb =>
        refine ⟨?_, ?_, hoffset, rfl⟩
        · intro other he
          cases he
          exact hb
        · intro kind columns rows he
          cases he
          obtain ⟨name, hn⟩ := hl.named field hm _ hs
          exact rows_of_ofName hn
    | aggregate inner =>
      rw [hs] at hkind hoffset
      have hnested : inner.LaidOut := by
        obtain ⟨-, hnested⟩ := hl.throughout
        obtain ⟨hinner, -⟩ := hnested field hm inner hs
        exact hinner
      generalize hk : schema.kind = kind at hkind ⊢
      cases hkind with
      | aggregate hrel =>
        refine ⟨?_, ?_, ?_, hsize _ _ hs hrel⟩
        · intro type he
          cases he
        · intro _ _ _ he
          cases he
        · exact Nat.dvd_trans (minAlignment_dvd hnested.regular.alignment_eq) hoffset
  obtain ⟨hvalue, hrows, hdvd, hsame⟩ := hmid
  refine ⟨hvalue, hrows, hdvd, ?_, ?_, ?_, ?_⟩
  · intro ha
    rw [h.size, hsame]
    exact hr.single (h.array ▸ ha)
  · intro array ha
    exact minAlignment_dvd_stride hl hm (h.array ▸ ha)
  · intro array ha
    rw [hsame]
    exact hr.element_le array (h.array ▸ ha)
  · intro array ha
    rw [h.size]
    exact hr.size_eq array (h.array ▸ ha)

/-- A step makes a regular schema of a laid out aggregate. -/
theorem regular_step (scope : SchemaScope) (sizes : String → Nat) :
    scope.Step (fun layout => layout.LaidOut ∧ layout.DeterminedBy StructLayout.size sizes)
      fun hash schema => schema.Regular ∧ schema.size = sizes hash := by
  rintro layout identity units fields ⟨hl, hs⟩ - - hfields
  obtain ⟨hself, hnested⟩ := hs
  have hr := hl.regular
  have hsize : ∀ field ∈ layout.fields, ∀ (inner : StructLayout) (built : TypeSchema),
      field.shape = .aggregate inner → built.Regular ∧ built.size = sizes inner.contentHash →
        built.size = inner.size := by
    intro field hm inner built hshape hbuilt
    obtain ⟨hinner, -⟩ := hnested field hm inner hshape
    rw [hbuilt.2, hinner]
  refine ⟨.intro ?_ ?_ ?_ ?_ ?_, hself⟩
  · exact Nat.dvd_trans (minAlignment_dvd hr.alignment_eq) hr.size_dvd
  · exact forall_of_forall₂ hfields fun field hm schema hb => hb.regular hl hm (hsize field hm)
  · refine forall_of_forall₂ hfields fun field hm schema hb => ?_
    unfold FieldSchema.finish
    rw [hb.offset, hb.size]
    exact hr.inside field hm
  · refine pairwise_of_forall₂ hfields hr.in_order fun field other schema next hb hb' hle => ?_
    unfold FieldSchema.finish
    rw [hb.offset, hb.size, hb'.offset]
    exact hle
  · refine forall_of_forall₂ hfields fun field hm schema hb inner hk => ?_
    have hkind := hb.kind
    rw [hk] at hkind
    generalize field.shape = shape at hkind
    cases hkind with
    | aggregate hrel => exact hrel.1

/-- **Regularity.** The schemas of laid out aggregates are regular, where the content hash determines
the size, and have the sizes of the layouts. -/
theorem regular_of_toSchema {scope : SchemaScope} {layouts : List StructLayout}
    {kept after : SchemaTable} {schema : TypeSchema} (hb : Built scope layouts kept)
    (h : layout.toSchema scope kept = .ok (schema, after))
    (hl : ∀ other ∈ layout :: layouts, other.LaidOut)
    (hs : ∀ other ∈ layout :: layouts, other.DeterminedBy StructLayout.size sizes) :
    schema.Regular ∧ schema.size = layout.size := by
  have hp : ∀ other ∈ layout :: layouts, other.Throughout fun inner =>
      inner.LaidOut ∧ inner.DeterminedBy StructLayout.size sizes := by
    intro other hm
    exact (hl other hm).throughout.and (hs other hm).throughout
  obtain ⟨hlayout, hrest⟩ := List.forall_mem_cons.1 hp
  have hstep := regular_step scope sizes
  obtain ⟨⟨hregular, hsize⟩, -⟩ := toSchema_induction hstep hlayout (hb.induction hstep hrest) h
  obtain ⟨hself, -⟩ := hs layout List.mem_cons_self
  exact ⟨hregular, hsize.trans hself.symm⟩

/-! ## A room with lamps -/

/-- Lamps, a matrix whose columns are padded, and a map. -/
def roomDeclaration : TypeDeclaration where
  name := "Room"
  kind := .uniformBlock (some 1) none .std140
  fields := [{ typeName := "Lamp", name := "lamps", arrayLength := some 2 },
    { typeName := "mat3", name := "turn" }, { typeName := "sampler2D", name := "plan" },
    { typeName := "float", name := "levels", arrayLength := some 3 }]

/-- A registry that knows the lamps, and then the room. -/
def roomScope : SchemaScope where
  registry := ((({ suffixLength := 4 } : Registry).register lampDeclaration "lamp").2.register
    roomDeclaration "room").2
  maxTextureUnits := 32

theorem layOut_of_lookup_lampTable {name : String} {below : StructLayout}
    (h : lampTable.lookup name = some below) : lampDeclaration.layOut "lamp" [] = .ok below := by
  unfold lampTable at h
  split at h
  · rename_i layout made
    rw [List.lookup_cons] at h
    split at h
    · cases h
      exact made
    · cases h
  · cases h

/-- The room and its lamps have different hashes. -/
theorem determinedBy_room {α : Type} {view : StructLayout → α} {known : String → α}
    (hlamp : ∀ below, lampDeclaration.layOut "lamp" [] = .ok below → view below = known "lamp")
    {layout : StructLayout} (made : roomDeclaration.layOut "room" lampTable = .ok layout)
    (hroom : view layout = known "room") : layout.DeterminedBy view known := by
  refine StructLayout.determinedBy_of_layOut lampTable_laidOut made hroom fun _ below hl => ?_
  have hbelow := layOut_of_lookup_lampTable hl
  refine StructLayout.determinedBy_of_layOut (fun _ _ h => ?_) hbelow (hlamp below hbelow)
    fun _ _ h => ?_
  · cases h
  · cases h

/-! ## One hash for two sizes -/

/-- A base type may be the name of a struct as well: `sampler3DShadow` is no word of the language. Where
it stands for a field's type, the layout takes it for the sampler, but the fingerprint for the struct.
So `Narrow` has the hash of `Wide`, and the schema of `Wide` is used for both. -/
def blendUnit : SourceUnit where
  key := "blend.glsl"
  text := "struct sampler3DShadow\x7bvec4 a,b;\x7d;struct Pair\x7bvec4 a,b;\x7d;
struct Wide\x7bPair x,y;\x7d;struct Narrow\x7bsampler3DShadow x;Pair y;\x7d;
struct Scene\x7bNarrow narrow;vec4 tail;\x7d;"

/-- A fresh registry, 72 binding points, and nothing written. -/
def freshWork : Workspace BindingPool Artifacts where
  registry := { suffixLength := 4 }
  slots := { max := 72 }
  artifacts := []

/-- The compiled `Scene`. -/
def blendScene? : Option EmittedType :=
  (compile {} BindingPool.allocator memorySink blendUnit freshWork).1.result.toOption.bind
    (·.type? "Scene")

/-- A `vec4` at some offset. -/
def quadField (name : String) (offset : Nat) : FieldSchema where
  name
  typeName := "vec4"
  kind := .value (.vector .float 4)
  offset
  size := 16
  array := none
  location := none
  unit := none

/-- A struct at some offset. -/
def nestedField (name typeName : String) (offset size : Nat) (schema : TypeSchema) : FieldSchema where
  name
  typeName
  kind := .aggregate schema
  offset
  size
  array := none
  location := none
  unit := none

def pairSchema : TypeSchema where
  identity := ⟨"0f793d1e59aeb91e7815891431a14c722a4c6770", "5f44217d5bd15abb", "sampler3DShadow"⟩
  kind := .struct
  size := 32
  alignment := 16
  fields := [quadField "a" 0, quadField "b" 16]

def wideSchema : TypeSchema where
  identity := ⟨"db41e2e711f1b8ce0f9fe41fdcf1518ec504b243", "77e86b6c945b280a", "Wide"⟩
  kind := .struct
  size := 64
  alignment := 16
  fields := [nestedField "x" "Pair" 0 32 pairSchema, nestedField "y" "Pair" 32 32 pairSchema]

/-- The field `narrow` has 48 bytes, and a schema of 64. -/
def blendSchema : TypeSchema where
  identity := ⟨"f640af93f100e04eeb6411520b06d63f4bbd1dbb", "ceff8adc84ba22a2", "Scene"⟩
  kind := .struct
  size := 64
  alignment := 16
  fields := [nestedField "narrow" "Narrow" 0 48 wideSchema, quadField "tail" 48]

theorem schema_blendScene? : blendScene?.map (·.schema) = some blendSchema := by
  have hchecked : blendScene?.any (·.schema.beq blendSchema) = true := by decide +kernel
  obtain ⟨emitted, he, hb⟩ := (Option.any_eq_true _ _).1 hchecked
  rw [he, Option.map_some, TypeSchema.eq_of_beq hb]

end UniformLayout
