import UniformLayout.Proofs.Artifact.Placement
import UniformLayout.Proofs.Compilation.Settled
import UniformLayout.Proofs.Registry.Reachable

/-!
# Generated structs are laid out as their schemas say

For the schemas that are built of laid out aggregates, the host's rules give every plain-data struct,
on each level of nesting, the offsets and the size of its schema, and every struct for a padded element
its stride; nothing is left to implicit padding. Padding members are written exactly where the layout
has padding.

As for images, layouts with one content hash must not differ in what matters here, which is their
`footprint`. In `blend.glsl` they differ, and the struct of `Scene` is larger than its layout.

Main statements: `onHost_of_toSchema` and `blend_misplaced`.
-/

namespace UniformLayout

/-- The host agrees with the schema, and with the schemas nested in it. -/
inductive TypeSchema.OnHost : TypeSchema → Prop
  | intro {schema : TypeSchema} {struct : HostStruct} (laid : schema.hostStruct? = some struct)
      (agrees : schema.Agrees struct)
      (nested : ∀ field ∈ schema.fields, ∀ inner, field.kind = .aggregate inner → inner.OnHost) :
      TypeSchema.OnHost schema

/-- A generated source has a padding member in the plain-data struct, or a struct that pads
elements. -/
def TypeSchema.EmitsPadding (schema : TypeSchema) : Prop :=
  (∃ n bytes, padMember n bytes ∈ schema.dataMembers schema.plans) ∨
    ∃ plan ∈ schema.plans, plan.element.isSome

theorem emitsPadding_iff {schema : TypeSchema} (hr : schema.Regular) :
    schema.EmitsPadding ↔ (schema.fields.map FieldSchema.size).sum ≠ schema.size ∨
      ∃ field ∈ schema.fields, field.isPadded := by
  obtain ⟨-, -, hinside, horder, -⟩ := hr
  have hplans : schema.plans.map FieldPlan.field = schema.fields := fields_planFrom _ _ _ _
  have hmf := fun plan (hm : plan ∈ schema.plans) => mem_fields_of_mem_plans hm
  have hproper : ∀ plan ∈ schema.plans, plan.Proper := proper_planFrom
  obtain ⟨-, hpads⟩ := exists_padMember_iff hproper (Nat.zero_le schema.size)
    (fun plan hm => ⟨Nat.zero_le _, hinside _ (hmf plan hm)⟩)
    (by rwa [← hplans, List.pairwise_map] at horder) 0
  have hsum : (schema.plans.map (·.field.size)).sum = (schema.fields.map FieldSchema.size).sum := by
    rw [← hplans, List.map_map]
    rfl
  refine or_congr ?_ ⟨?_, ?_⟩
  · rw [← hsum, ← Nat.zero_add (schema.plans.map (·.field.size)).sum]
    exact hpads
  · rintro ⟨plan, hm, he⟩
    exact ⟨plan.field, hmf plan hm, (hproper plan hm).element_isSome ▸ he⟩
  · rintro ⟨field, hf, hpadded⟩
    rw [← hplans] at hf
    obtain ⟨plan, hm, rfl⟩ := List.mem_map.1 hf
    exact ⟨plan, hm, (hproper plan hm).element_isSome.trans hpadded⟩

/-! ## Footprints -/

mutual

/-- The largest alignment of a component. -/
def FieldShape.hostAlignment : FieldShape → Nat
  | .base type => type.hostAlignment
  | .aggregate layout => layout.hostAlignment

def StructLayout.hostAlignment : StructLayout → Nat
  | { fields, .. } => hostAlignmentOf fields

def hostAlignmentOf : List FieldLayout → Nat
  | [] => 1
  | { shape, .. } :: rest => max shape.hostAlignment (hostAlignmentOf rest)

end

theorem StructLayout.hostAlignment_eq (layout : StructLayout) :
    layout.hostAlignment = largestAlignment (layout.fields.map (·.shape.hostAlignment)) := by
  have hall : ∀ fields : List FieldLayout,
      hostAlignmentOf fields = largestAlignment (fields.map (·.shape.hostAlignment)) := by
    intro fields
    induction fields with
    | nil => rw [hostAlignmentOf]; rfl
    | cons field rest ih =>
      obtain ⟨name, typeName, shape, offset, size, alignment, array, qualifiers⟩ := field
      rw [hostAlignmentOf, ih]
      rfl
  cases layout
  rw [hostAlignment]
  exact hall _

/-- What the plain-data struct of a layout shows to the structs that hold it, and whether it is
padded. -/
structure Footprint where
  size : Nat
  alignment : Nat
  padded : Bool
  deriving DecidableEq

def StructLayout.footprint (layout : StructLayout) : Footprint where
  size := layout.size
  alignment := layout.hostAlignment
  padded := layout.hasPadding

/-- A generated name belongs to one hash. -/
theorem Registry.Consistent.hash_eq {registry : Registry} (h : registry.Consistent)
    {hash other : String} {identity identity' : TypeIdentity}
    (hi : registry.identityOfHash? hash = some identity)
    (ho : registry.identityOfHash? other = some identity')
    (hn : identity.generatedName = identity'.generatedName) : hash = other := by
  have hknown : ∀ {hash identity}, registry.identityOfHash? hash = some identity →
      ∃ index : Nat, registry.hashes[index]? = some hash ∧
        registry.names[index]? = some identity.generatedName := by
    intro hash identity hi
    have hk : (registry.byHash.lookup hash).isSome := by
      unfold Registry.identityOfHash? Registry.ofHash? at hi
      cases hl : registry.byHash.lookup hash with
      | none =>
        rw [hl] at hi
        cases hi
      | some index => rfl
    obtain ⟨index, record, hr, hhash, hidentity, -⟩ := h.record_of_hash hk
    obtain rfl := Option.some.inj (hidentity.symm.trans hi)
    refine ⟨index, ?_, ?_⟩
    · rw [Registry.hashes, List.getElem?_map, hr, ← hhash]
      rfl
    · rw [Registry.names, List.getElem?_map, hr]
      rfl
  obtain ⟨i, hash_i, name_i⟩ := hknown hi
  obtain ⟨j, hash_j, name_j⟩ := hknown ho
  rw [← hn] at name_j
  obtain rfl := Option.some.inj
    (((h.byGeneratedName _ i).2 name_i).symm.trans ((h.byGeneratedName _ j).2 name_j))
  exact Option.some.inj (hash_i.symm.trans hash_j)

/-! ## Building -/

/-- What is known of a schema that is kept under a hash. -/
structure TypeSchema.Stands (scope : SchemaScope) (known : String → Footprint) (hash : String)
    (schema : TypeSchema) : Prop where
  regular : schema.Regular
  size : schema.size = (known hash).size
  identity : scope.registry.identityOfHash? hash = some schema.identity
  onHost : schema.OnHost
  alignment : ∃ struct, schema.hostStruct? = some struct ∧
    struct.extent = ⟨(known hash).size, (known hash).alignment⟩ ∧ struct.alignment ∈ [1, 4, 8]
  padding : schema.EmitsPadding ↔ (known hash).padded = true

variable {scope : SchemaScope} {known : String → Footprint}

section

variable {layout : StructLayout} {units : Table String Nat} {field : FieldLayout}
  {schema : FieldSchema}

/-- A nested schema and the layout that it stands for. -/
theorem FieldLayout.Becomes.aggregate {R : StructLayout → TypeSchema → Prop}
    (h : field.Becomes R units schema) {inner : TypeSchema} (hk : schema.kind = .aggregate inner) :
    ∃ below, field.shape = .aggregate below ∧ R below inner := by
  have hkind := h.kind
  rw [hk] at hkind
  generalize field.shape = shape at hkind ⊢
  cases hkind with
  | aggregate hr => exact ⟨_, rfl, hr⟩

variable (hn : layout.Throughout fun inner => inner.footprint = known inner.contentHash)
include hn

theorem FieldLayout.Becomes.hostAlignment_eq (hm : field ∈ layout.fields)
    (h : field.Becomes (fun inner built => built.Stands scope known inner.contentHash) units schema) :
    schema.kind.hostAlignment = field.shape.hostAlignment ∧
      schema.elementSize = field.elementSize := by
  unfold FieldSchema.elementSize FieldLayout.elementSize
  obtain ⟨-, hnested⟩ := hn
  have hkind := h.kind
  cases hs : field.shape with
  | base type =>
    rw [hs] at hkind
    generalize schema.kind = kind at hkind
    cases hkind with
    | handle handle =>
      rw [FieldShape.hostAlignment]
      exact ⟨rfl, rfl⟩
    | value _ hb =>
      rw [FieldShape.hostAlignment]
      exact ⟨rfl, rfl⟩
  | aggregate below =>
    obtain ⟨hbelow, -⟩ := hnested field hm below hs
    rw [hs] at hkind
    generalize schema.kind = kind at hkind
    cases hkind with
    | aggregate hstands =>
      obtain ⟨struct, hlaid, hextent, -⟩ := hstands.alignment
      have halign := congrArg Extent.alignment hextent
      have hsize := hstands.size
      rw [← hbelow] at halign hsize
      refine ⟨?_, hsize⟩
      rw [FieldKind.hostAlignment, hlaid, FieldShape.hostAlignment]
      exact halign

theorem hostAlignment_of_becomes {fields : List FieldSchema}
    (hfields : List.Forall₂ (FieldLayout.Becomes
      (fun inner built => built.Stands scope known inner.contentHash) units) layout.fields fields) :
    largestAlignment (fields.map (·.kind.hostAlignment)) = layout.hostAlignment := by
  rw [layout.hostAlignment_eq]
  exact congrArg _ (map_eq_of_forall₂ hfields fun field hm schema h =>
    (h.hostAlignment_eq hn hm).1)

/-- A layout has padding where its schema has. -/
theorem hasPadding_of_becomes {fields : List FieldSchema}
    (hfields : List.Forall₂ (FieldLayout.Becomes
      (fun inner built => built.Stands scope known inner.contentHash) units) layout.fields fields) :
    layout.hasPadding = true ↔
      (fields.map FieldSchema.size).sum ≠ layout.size ∨ ∃ field ∈ fields, field.isPadded := by
  have hsizes : fields.map FieldSchema.size = layout.fields.map FieldLayout.size :=
    map_eq_of_forall₂ hfields fun _ _ _ h => h.size
  have hpadded : fields.map FieldSchema.isPadded =
      layout.fields.map fun field => !field.isTightlyPacked := by
    refine map_eq_of_forall₂ hfields fun field hm schema h => ?_
    unfold FieldSchema.isPadded FieldLayout.isTightlyPacked
    rw [h.array, (h.hostAlignment_eq hn hm).2]
    cases field.array with
    | none => rfl
    | some array => rfl
  have hmem : true ∈ fields.map FieldSchema.isPadded ↔
      true ∈ layout.fields.map fun field => !field.isTightlyPacked := by rw [hpadded]
  rw [List.mem_map, List.mem_map] at hmem
  unfold StructLayout.hasPadding
  rw [Bool.or_eq_true, bne_iff_ne, List.any_eq_true, ← hmem, hsizes]
  rfl

end

/-- A step makes a schema on which the host agrees. -/
theorem stands_step {suffixLength : Nat} {past : List Registration}
    (hr : Registry.Reachable suffixLength past scope.registry) :
    scope.Step (fun layout => layout.LaidOut ∧ layout.DeterminedBy StructLayout.footprint known)
      fun hash schema => schema.Stands scope known hash := by
  rintro layout identity units fields ⟨hl, hdetermined⟩ hi hu hfields
  have ⟨hself, _⟩ := hdetermined
  have hregular := regular_step scope (fun hash => (known hash).size) layout identity units fields
    ⟨hl, hdetermined.map Footprint.size⟩ hi hu
    (hfields.imp fun _ _ h => h.mono fun _ _ hs => ⟨hs.regular, hs.size⟩)
  obtain ⟨hregular, hsize⟩ := hregular
  -- Every nested schema stands under the hash of a nested layout.
  have hnested : ∀ field ∈ fields, ∀ inner, field.kind = .aggregate inner →
      ∃ hash, inner.Stands scope known hash := by
    refine forall_of_forall₂ hfields fun field _ schema h inner hk => ?_
    obtain ⟨below, -, hstands⟩ := h.aggregate hk
    exact ⟨below.contentHash, hstands⟩
  have hprepared :
      (⟨identity, layout.kind, layout.size, layout.alignment, fields⟩ : TypeSchema).Prepared := by
    constructor
    · intro field hm inner hk
      obtain ⟨hash, hstands⟩ := hnested field hm inner hk
      obtain ⟨struct, hlaid, hextent, halign⟩ := hstands.alignment
      exact ⟨struct, hlaid, (congrArg Extent.size hextent).trans hstands.size.symm, halign⟩
    · intro field hm other ho inner inner' hk hk' hname
      obtain ⟨hash, hstands⟩ := hnested field hm inner hk
      obtain ⟨hash', hstands'⟩ := hnested other ho inner' hk'
      obtain rfl := hr.wellFormed.consistent.hash_eq hstands.identity hstands'.identity hname
      obtain ⟨struct, hlaid, hextent, -⟩ := hstands.alignment
      obtain ⟨struct', hlaid', hextent', -⟩ := hstands'.alignment
      rw [hlaid, hlaid', Option.map_some, Option.map_some, hextent, hextent']
  obtain ⟨struct, hlaid, hagrees, halign, hmem⟩ := hostStruct?_of_regular hregular hprepared
  refine ⟨hregular, hsize, hi, .intro hlaid hagrees fun field hm inner hk => ?_,
    ⟨struct, hlaid, ?_, hmem⟩, ?_⟩
  · obtain ⟨hash, hstands⟩ := hnested field hm inner hk
    exact hstands.onHost
  · unfold HostStruct.extent
    rw [hagrees.size, hsize, halign, hostAlignment_of_becomes hdetermined hfields, ← hself]
    rfl
  · rw [emitsPadding_iff hregular, ← hself]
    exact (hasPadding_of_becomes hdetermined hfields).symm

/-- **Host structs.** The plain-data structs of a schema that is built of laid out aggregates have
its offsets and sizes, without implicit padding, and padding is written where the layout has it. -/
theorem onHost_of_toSchema {suffixLength : Nat} {past : List Registration}
    {layouts : List StructLayout} {layout : StructLayout} {kept after : SchemaTable}
    {schema : TypeSchema} (hr : Registry.Reachable suffixLength past scope.registry)
    (hb : Built scope layouts kept) (h : layout.toSchema scope kept = .ok (schema, after))
    (hl : ∀ other ∈ layout :: layouts, other.LaidOut)
    (hd : ∀ other ∈ layout :: layouts, other.DeterminedBy StructLayout.footprint known) :
    schema.size = layout.size ∧ schema.OnHost ∧
      (schema.EmitsPadding ↔ layout.hasPadding = true) := by
  have hp : ∀ other ∈ layout :: layouts, other.Throughout fun inner =>
      inner.LaidOut ∧ inner.DeterminedBy StructLayout.footprint known := by
    intro other hm
    exact (hl other hm).throughout.and (hd other hm).throughout
  obtain ⟨hlayout, hrest⟩ := List.forall_mem_cons.1 hp
  have hstep : scope.Step _ fun hash schema => schema.Stands scope known hash := stands_step hr
  obtain ⟨hstands, -⟩ := toSchema_induction hstep hlayout (hb.induction hstep hrest) h
  obtain ⟨hself, -⟩ := hd layout List.mem_cons_self
  refine ⟨hstands.size.trans (congrArg Footprint.size hself).symm, hstands.onHost, ?_⟩
  rw [hstands.padding, ← hself]
  rfl

def roomFootprints (hash : String) : Footprint :=
  if hash = "lamp" then ⟨16, 4, false⟩ else ⟨144, 4, true⟩

theorem onHost_of_toSchema_room :
    ∃ layout schema after, roomDeclaration.layOut "room" lampTable = .ok layout ∧
      layout.toSchema roomScope [] = .ok (schema, after) ∧ schema.OnHost ∧ schema.EmitsPadding := by
  have hmade : (roomDeclaration.layOut "room" lampTable).toOption.any (fun layout =>
      decide (layout.footprint = roomFootprints "room") &&
        (layout.toSchema roomScope []).toOption.any fun _ => true) = true := by decide +kernel
  obtain ⟨layout, hl, hmade⟩ := exists_ok_of_any hmade
  obtain ⟨hroom, hmade⟩ := Bool.and_eq_true_iff.1 hmade
  obtain ⟨⟨schema, after⟩, hs, -⟩ := exists_ok_of_any hmade
  have hroom := of_decide_eq_true hroom
  have hlamp : (lampDeclaration.layOut "lamp" []).toOption.all (fun below =>
      decide (below.footprint = roomFootprints "lamp")) = true := by decide +kernel
  have hlaid : layout.LaidOut := .intro lampTable_laidOut hl
  have hdetermined : layout.DeterminedBy StructLayout.footprint roomFootprints :=
    determinedBy_room (fun below hb => of_decide_eq_true (by rwa [hb] at hlamp)) hl hroom
  have hfirst : Registry.Reachable 4 _ (({ suffixLength := 4 } : Registry).register
      lampDeclaration "lamp").2 :=
    .step (.register lampDeclaration "lamp") .empty fun _ => ⟨0, by decide, rfl⟩
  have hreachable : Registry.Reachable 4 _ roomScope.registry :=
    .step (.register roomDeclaration "room") hfirst fun _ => ⟨0, by decide, by decide +kernel⟩
  obtain ⟨-, hhost, hpads⟩ := onHost_of_toSchema hreachable .none hs (by simpa using hlaid)
    (by simpa using hdetermined)
  exact ⟨layout, schema, after, hl, hs, hhost, hpads.2 (congrArg Footprint.padded hroom)⟩

/-- In `blend.glsl`, `tail` has another offset than its schema says. -/
theorem blend_misplaced :
    ∃ schema struct plan, blendScene?.map (·.schema) = some schema ∧
      schema.hostStruct? = some struct ∧ plan ∈ schema.plans ∧
      struct.offsetOf? plan.identifier ≠ some plan.field.offset ∧ struct.size ≠ schema.size := by
  have hchecked : blendSchema.hostStruct?.any (fun struct =>
      decide (struct.size ≠ blendSchema.size) && blendSchema.plans.any fun plan =>
        decide (struct.offsetOf? plan.identifier ≠ some plan.field.offset)) = true := by
    decide +kernel
  obtain ⟨struct, hs, hchecked⟩ := (Option.any_eq_true _ _).1 hchecked
  obtain ⟨hsize, hplan⟩ := Bool.and_eq_true_iff.1 hchecked
  obtain ⟨plan, hm, hoffset⟩ := List.any_eq_true.1 hplan
  exact ⟨blendSchema, struct, plan, schema_blendScene?, hs, hm, of_decide_eq_true hoffset,
    of_decide_eq_true hsize⟩

end UniformLayout
