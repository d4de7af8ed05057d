import UniformLayout.Proofs.Instance.Offsets
import UniformLayout.Proofs.Instance.Units
import UniformLayout.Proofs.Instance.Upload

/-!
# Counts and offsets have 32 bits

Handles are counted field by field, and offsets are added up level by level, in numbers of 32 bits.
Only the counts of layouts stop at the largest of these; all other sums are taken to fit. They do: each
leaf has its own bytes, a handle four of them, and the whole has a size of 32 bits. Schemas inherit this
from the layouts that they were built of, wherever layouts with one content hash have one size and one
count.

* `StructLayout.LaidOut.countP_leaves`: the count of a layout is the number of its leaves that hold
  handles.
* `TypeSchema.Regular.nests`: instances nested in each other lie in the outermost one.

Main statement: `sums_of_toSchema`.
-/

namespace UniformLayout

/-! ## Counting leaves -/

/-- The number of leaves of the layout that hold handles. -/
def StructLayout.handleLeaves (layout : StructLayout) : Nat :=
  (layout.leaves 0).countP (·.type.isHandle)

/-- As many handles below each element of a field as its shape counts. -/
theorem FieldLayout.countP_leaves {field : FieldLayout}
    (h : ∀ base, (field.shape.leaves base).countP (·.type.isHandle) = field.shape.handleCount)
    (base : Nat) : (field.leaves base).countP (·.type.isHandle) =
      field.shape.handleCount * field.length := by
  have heach : (fun index => (field.shape.leaves (base + field.elementOffset index)).countP
      (·.type.isHandle)) = fun _ => field.shape.handleCount := funext fun index => h _
  rw [field.leaves_eq, List.countP_flatMap]
  change ((List.range field.length).map fun index => (field.shape.leaves
    (base + field.elementOffset index)).countP (·.type.isHandle)).sum = _
  rw [heach, List.map_const', List.sum_replicate_nat, List.length_range, Nat.mul_comm]

/-- The count of a layout is the number of its leaves that hold handles, wherever it stands. -/
theorem StructLayout.LaidOut.countP_leaves {layout : StructLayout} (h : layout.LaidOut)
    (base : Nat) : (layout.leaves base).countP (·.type.isHandle) = layout.handleCount := by
  have hall := h.throughout
  clear h
  induction hall generalizing base with
  | @intro layout self nested ih =>
    have hshape : ∀ field ∈ layout.fields, ∀ base,
        (field.shape.leaves base).countP (·.type.isHandle) = field.shape.handleCount := by
      intro field hm base
      cases hs : field.shape with
      | base type => rw [FieldShape.leaves, FieldShape.handleCount, List.countP_singleton]
      | aggregate inner =>
        rw [FieldShape.leaves, FieldShape.handleCount]
        exact ih field hm inner hs base
    rw [layout.leaves_eq, List.countP_flatMap, self.handleCount_eq_sum]
    refine congrArg List.sum (List.map_congr_left fun field hm => ?_)
    rw [self.handleCount_field hm]
    exact field.countP_leaves (hshape field hm) base

/-- The layout counts its handles exactly: no product and no sum is cut off. -/
structure StructLayout.CountsAll (layout : StructLayout) : Prop where
  count_eq : layout.handleCount = layout.handleLeaves
  room : 4 * layout.handleLeaves ≤ layout.size
  fits : Fits layout.size
  product : ∀ field ∈ layout.fields, field.handleCount = field.shape.handleCount * field.length
  sum : layout.handleCount = (layout.fields.map FieldLayout.handleCount).sum

theorem StructLayout.LaidOut.countsAll {layout : StructLayout} (h : layout.LaidOut) :
    layout.CountsAll where
  count_eq := (h.countP_leaves 0).symm
  room := by
    unfold handleLeaves
    rw [h.countP_leaves]
    exact h.four_handleCount_le.2
  fits := h.fits
  product _ hm := h.handleCount_field hm
  sum := h.handleCount_eq_sum

/-! ## Counts of schemas -/

/-- On every level of nesting there are four bytes for each handle, and the size has 32 bits. -/
inductive TypeSchema.Roomy : TypeSchema → Prop
  | intro {schema : TypeSchema} (room : 4 * schema.handleCount ≤ schema.size) (fits : Fits schema.size)
      (nested : ∀ field ∈ schema.fields, ∀ inner, field.kind = .aggregate inner → inner.Roomy) :
      TypeSchema.Roomy schema

/-- A step builds a schema that counts what the layout does, and takes its size. -/
theorem roomy_step (scope : SchemaScope) (sizes counts : String → Nat) :
    scope.Step
      (fun layout => layout.LaidOut ∧ layout.DeterminedBy StructLayout.size sizes ∧
        layout.DeterminedBy StructLayout.handleCount counts)
      fun hash schema => (schema.Regular ∧ schema.size = sizes hash) ∧
        schema.Counted scope.maxTextureUnits (counts hash) ∧ schema.Roomy := by
  rintro layout identity units fields ⟨hl, hs, hc⟩ hi hu hfields
  have hregular := regular_step scope sizes layout identity units fields ⟨hl, hs⟩ hi hu
    (hfields.imp fun _ _ hb => hb.mono fun _ _ h => h.1)
  have hcounted := counted_step scope counts layout identity units fields ⟨hl, hc⟩ hi hu
    (hfields.imp fun _ _ hb => hb.mono fun _ _ h => h.2.1)
  refine ⟨hregular, hcounted, .intro ?_ hl.fits ?_⟩
  · rw [hcounted.count_eq, ← hc.head]
    exact hl.four_handleCount_le.2
  · refine forall_of_forall₂ hfields fun field hm schema hb inner hk => ?_
    have hkind := hb.kind
    rw [hk] at hkind
    generalize field.shape = shape at hkind
    cases hkind with
    | aggregate hbuilt => exact hbuilt.2.2

/-! ## Sums of offsets -/

/-- An instance nested in one of the schema: its schema, and where it starts. The offsets of the elements
that hold it are added up from the outermost one on. -/
inductive TypeSchema.Nests (schema : TypeSchema) : Nat → TypeSchema → Prop
  | whole : Nests schema 0 schema
  | inside {base index : Nat} {outer inner : TypeSchema} {field : FieldSchema}
      (h : Nests schema base outer) (mem : field ∈ outer.fields)
      (kind : field.kind = .aggregate inner) (bound : index < field.length) :
      Nests schema (base + field.elementOffset index) inner

/-- The field ends inside an instance that starts at `base`, and its elements inside the field. -/
structure FieldSchema.EndsBy (field : FieldSchema) (base limit : Nat) : Prop where
  field_le : base + field.offset + field.size ≤ limit
  element_le : ∀ index < field.length, base + field.elementOffset index + field.elementSize ≤ limit

theorem FieldSchema.EndsBy.mono {field : FieldSchema} {base limit wider : Nat}
    (h : field.EndsBy base limit) (hle : limit ≤ wider) : field.EndsBy base wider where
  field_le := Nat.le_trans h.field_le hle
  element_le index hlt := Nat.le_trans (h.element_le index hlt) hle

namespace TypeSchema.Regular

variable {schema inner : TypeSchema} {base : Nat}

theorem endsBy (h : schema.Regular) {field : FieldSchema} (hm : field ∈ schema.fields) (base : Nat) :
    field.EndsBy base (base + schema.size) := by
  obtain ⟨-, hfield, hinside, -, -⟩ := h
  have hend := hinside field hm
  unfold FieldSchema.finish at hend
  refine ⟨by omega, fun index hlt => ?_⟩
  have helement := (hfield field hm).element_inside hlt
  unfold FieldSchema.elementOffset
  omega

/-- Nested instances lie in the whole one. -/
theorem nests (hr : schema.Regular) (h : schema.Nests base inner) :
    inner.Regular ∧ base + inner.size ≤ schema.size := by
  induction h with
  | whole => exact ⟨hr, by omega⟩
  | @inside base index outer inner field _ mem kind bound ih =>
    obtain ⟨houter, hle⟩ := ih
    have hends := (houter.endsBy mem base).element_le index bound
    have hsize := field.elementSize_of_aggregate kind
    obtain ⟨-, -, -, -, nested⟩ := houter
    exact ⟨nested field mem inner kind, by omega⟩

end TypeSchema.Regular

namespace StructInstance

variable {inst found : StructInstance} {steps : List PathStep} {way : Way} {start base : Nat}

/-- Where an instance leads, its schema nests an instance. -/
theorem Leads.nests (h : inst.Leads steps way start found) (ht : inst.Typed) {schema : TypeSchema}
    (hs : schema.Nests base inst.schema) : schema.Nests (base + start) found.schema := by
  induction h generalizing base with
  | here inst => exact hs
  | into schemaAt stateAt held childAt _ ih =>
    obtain ⟨hlt, hk, htyped⟩ := ht.child_of_field schemaAt stateAt held childAt
    rw [← Nat.add_assoc]
    exact ih htyped (hs.inside (List.mem_of_getElem? schemaAt) hk hlt)

/-- The sums over an instance of the schema lead to fields of nested instances: where it leads, where
its leaves are located by their offsets, and where it reports changes. -/
structure SumsIn (schema : TypeSchema) (inst : StructInstance) : Prop where
  led : ∀ steps way start found, inst.Leads steps way start found → schema.Nests start found.schema
  located : ∀ spot index location, inst.locateAtOffsets.locationAt? spot index = some location →
    ∃ start inner, schema.Nests start inner ∧ ∃ field ∈ inner.fields,
      location = some (start + field.offset)
  changed : ∀ change ∈ inst.dirtyFields, ∃ start inner, schema.Nests start inner ∧
    ∃ field ∈ inner.fields, ∃ index < field.length,
      change.offset = start + field.elementOffset index ∧ change.size = field.elementSize

theorem sumsIn (hk : inst.schema.Kinded) (ht : inst.Typed) (hf : inst.Flagged) :
    inst.SumsIn inst.schema where
  led steps way start found h := Nat.zero_add start ▸ h.nests ht .whole
  located spot index location h := by
    obtain ⟨htyped, hschema⟩ := (@Changes.locateAtOffsets inst).typed ht
    obtain ⟨element, he, rfl⟩ := Option.map_eq_some_iff.1 h
    obtain ⟨steps, start, found, field, state, hleads, hfield, hown, helement⟩ :=
      exists_leads_of_elementAt? htyped he
    refine ⟨start, found.schema, ?_, field, List.mem_of_getElem? hfield, ?_⟩
    · rw [← hschema, ← Nat.zero_add start]
      exact hleads.nests htyped .whole
    · rw [FieldState.element?_location helement, hleads.located rfl hfield hown, Nat.zero_add]
  changed change hm := by
    obtain ⟨spot, index, steps, start, found, field, state, hleads, hfield, hown, hflag, rfl⟩ :=
      (mem_dirtyFields_iff hk ht).1 hm
    obtain ⟨hlt, -⟩ := hleads.dirty_element ht hf hfield hown hflag
    have hnests : inst.schema.Nests (0 + start) found.schema := hleads.nests ht .whole
    exact ⟨0 + start, found.schema, hnests, field, List.mem_of_getElem? hfield, index, hlt, rfl, rfl⟩

end StructInstance

/-- **Sums.** A laid out aggregate and the aggregates in it count their handles exactly, and have four
bytes for each. The schema has as many, and its size. Take any instance nested in one of the schema: it
lies inside, with all its fields and their elements, and after any calls the sums over an instance lead
to such fields. -/
theorem sums_of_toSchema {scope : SchemaScope} {layouts : List StructLayout} {layout : StructLayout}
    {kept after : SchemaTable} {schema : TypeSchema} {sizes counts : String → Nat}
    (hb : Built scope layouts kept) (h : layout.toSchema scope kept = .ok (schema, after))
    (hl : ∀ other ∈ layout :: layouts, other.LaidOut)
    (hs : ∀ other ∈ layout :: layouts, other.DeterminedBy StructLayout.size sizes)
    (hc : ∀ other ∈ layout :: layouts, other.DeterminedBy StructLayout.handleCount counts)
    (calls : List (List PathStep × SiteCall)) :
    layout.Throughout StructLayout.CountsAll ∧ schema.Roomy ∧
      schema.handleCount = layout.handleLeaves ∧ schema.size = layout.size ∧
      (∀ base inner, schema.Nests base inner → base + inner.size ≤ layout.size ∧
        ∀ field ∈ inner.fields, field.EndsBy base layout.size) ∧
      ∃ site, schema.site.run calls = site ∧ site.inst.SumsIn schema := by
  have hp : ∀ other ∈ layout :: layouts, other.Throughout fun inner => inner.LaidOut ∧
      inner.DeterminedBy StructLayout.size sizes ∧
        inner.DeterminedBy StructLayout.handleCount counts := by
    intro other hm
    exact (hl other hm).throughout.and ((hs other hm).throughout.and (hc other hm).throughout)
  obtain ⟨hlayout, hrest⟩ := List.forall_mem_cons.1 hp
  have hstep := roomy_step scope sizes counts
  obtain ⟨⟨⟨hregular, hsize⟩, hcounted, hroomy⟩, -⟩ :=
    toSchema_induction hstep hlayout (hb.induction hstep hrest) h
  have hsame : schema.size = layout.size := hsize.trans (hs layout List.mem_cons_self).head.symm
  have hcounts : layout.Throughout StructLayout.CountsAll :=
    (hl layout List.mem_cons_self).throughout.mono fun _ hlaid => hlaid.countsAll
  have hsound := (Site.sound_new hregular.kinded).run calls
  refine ⟨hcounts, hroomy, ?_, hsame, fun base inner hn => ?_, _, rfl, ?_⟩
  · rw [hcounted.count_eq, ← (hc layout List.mem_cons_self).head, hcounts.head.count_eq]
  · obtain ⟨hinner, hle⟩ := hregular.nests hn
    rw [hsame] at hle
    exact ⟨hle, fun field hm => (hinner.endsBy hm base).mono hle⟩
  · have hsums := StructInstance.sumsIn (hsound.schema_eq.symm ▸ hregular.kinded) hsound.typed
      hsound.flagged
    rwa [hsound.schema_eq] at hsums

/-! ## Sums over a hall -/

def hallSizes (hash : String) : Nat := if hash = "bulb" then 48 else 112

theorem sums_of_toSchema_hall :
    ∃ below layout schema after site, bulbDeclaration.layOut "bulb" [] = .ok below ∧
      hallDeclaration.layOut "hall" [("Bulb", below)] = .ok layout ∧
      layout.toSchema hallScope [] = .ok (schema, after) ∧
      layout.handleLeaves = 7 ∧ layout.CountsAll ∧ schema.handleCount = 7 ∧ schema.size = 112 ∧
      (∀ base inner, schema.Nests base inner → ∀ field ∈ inner.fields, field.EndsBy base 112) ∧
      schema.site.run [([⟨"bulbs", some 1⟩], .on (.setHandle "masks" 1 ⟨7⟩))] = site ∧
      site.inst.SumsIn schema := by
  have hmade : (bulbDeclaration.layOut "bulb" []).toOption.any (fun below =>
      below.size == hallSizes "bulb" && below.handleCount == hallCounts "bulb" &&
        (hallDeclaration.layOut "hall" [("Bulb", below)]).toOption.any fun layout =>
          layout.size == hallSizes "hall" && layout.handleCount == hallCounts "hall" &&
            (layout.toSchema hallScope []).toOption.any fun _ => true) = true := by
    decide +kernel
  obtain ⟨below, hbelow, hmade⟩ := exists_ok_of_any hmade
  obtain ⟨hbulb, hmade⟩ := Bool.and_eq_true_iff.1 hmade
  obtain ⟨layout, hlayout, hmade⟩ := exists_ok_of_any hmade
  obtain ⟨hhall, hmade⟩ := Bool.and_eq_true_iff.1 hmade
  simp only [Bool.and_eq_true, beq_iff_eq] at hbulb hhall
  obtain ⟨⟨schema, after⟩, hs, -⟩ := exists_ok_of_any hmade
  have hsizes : layout.DeterminedBy StructLayout.size hallSizes :=
    determinedBy_hall hbelow hbulb.1 hlayout hhall.1
  have hknown : layout.DeterminedBy StructLayout.handleCount hallCounts :=
    determinedBy_hall hbelow hbulb.2 hlayout hhall.2
  obtain ⟨hcounts, -, hcount, hsize, hends, site, hsite, hsums⟩ :=
    sums_of_toSchema .none hs (by simpa using hall_laidOut hbelow hlayout) (by simpa using hsizes)
      (by simpa using hknown) [([⟨"bulbs", some 1⟩], .on (.setHandle "masks" 1 ⟨7⟩))]
  have hseven : layout.handleLeaves = 7 := hcounts.head.count_eq.symm.trans hhall.2
  rw [hseven] at hcount
  rw [show layout.size = 112 from hhall.1] at hsize hends
  exact ⟨below, layout, schema, after, site, hbelow, hlayout, hs, hseven, hcounts.head, hcount,
    hsize, fun base inner hn => (hends base inner hn).2, hsite, hsums⟩

/-! ## A field that ends outside -/

/-- As in `blendUnit`, `Narrow` has the hash of `Wide`: 48 bytes and three samplers, but a schema of 64
bytes with four. -/
def depthUnit : SourceUnit where
  key := "depth.glsl"
  text := "struct sampler3DShadow\x7bsampler2D a,b;vec4 c;\x7d;struct Pair\x7bsampler2D a,b;vec4 c;\x7d;
struct Wide\x7bPair x,y;\x7d;struct Narrow\x7bsampler3DShadow x;Pair y;\x7d;
struct Scene\x7bvec4 head;Narrow narrow;\x7d;"

/-- The compiled `Scene`. -/
def depthScene? : Option EmittedType :=
  (compile {} BindingPool.allocator memorySink depthUnit freshWork).1.result.toOption.bind
    (·.type? "Scene")

/-- The last field of `narrow` is reported behind the end of the scene, and the schema has a handle more
than the layout. -/
theorem depth_out_of_bounds :
    ∃ emitted, depthScene? = some emitted ∧ emitted.descriptor.layout.size = 64 ∧
      emitted.descriptor.layout.handleLeaves = 3 ∧ emitted.schema.handleCount = 4 ∧
      (emitted.schema.site.run [([⟨"narrow", none⟩, ⟨"y", none⟩],
        .on (.set "c" none ⟨.float, .vector 4, [0, 0, 0, 0]⟩))]).inst.dirtyFields =
          [⟨"narrow.y.c", 64, 16, none⟩] := by
  have hchecked : depthScene?.any (fun emitted =>
      emitted.descriptor.layout.size == 64 && emitted.descriptor.layout.handleLeaves == 3 &&
        emitted.schema.handleCount == 4 &&
        (emitted.schema.site.run [([⟨"narrow", none⟩, ⟨"y", none⟩],
          .on (.set "c" none ⟨.float, .vector 4, [0, 0, 0, 0]⟩))]).inst.dirtyFields ==
            [⟨"narrow.y.c", 64, 16, none⟩]) = true := by
    decide +kernel
  obtain ⟨emitted, he, hchecked⟩ := (Option.any_eq_true _ _).1 hchecked
  simp only [Bool.and_eq_true, beq_iff_eq] at hchecked
  obtain ⟨⟨⟨hsize, hleaves⟩, hcount⟩, hdirty⟩ := hchecked
  exact ⟨emitted, he, hsize, hleaves, hcount, hdirty⟩

end UniformLayout
