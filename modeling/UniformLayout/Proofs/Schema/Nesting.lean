import UniformLayout.Schema.Build

/-!
# Layouts whose schema can be built

A property holds `Throughout` a layout when it holds of the layout and of every layout nested in it,
at any depth. The schema of a layout can be built when each of these layouts has an identity, and
the free uniforms among them find their texture units.

Main statement: `toSchema_isOk`.
-/

namespace UniformLayout

namespace StructLayout

/-- The property holds of the layout and of every layout nested in it. -/
inductive Throughout (P : StructLayout → Prop) : StructLayout → Prop
  | intro {layout : StructLayout} (self : P layout)
      (nested : ∀ field ∈ layout.fields, ∀ inner, field.shape = .aggregate inner →
        Throughout P inner) : Throughout P layout

theorem Throughout.mono {P Q : StructLayout → Prop} {layout : StructLayout}
    (h : layout.Throughout P) (hpq : ∀ inner, P inner → Q inner) : layout.Throughout Q := by
  induction h with
  | intro self _ ih => exact .intro (hpq _ self) ih

mutual

/-- What holds of every layout holds throughout each of them. -/
theorem throughout_of_forall {P : StructLayout → Prop} (h : ∀ layout, P layout) :
    ∀ layout : StructLayout, layout.Throughout P
  | ⟨_, _, _, fields, _, _⟩ => .intro (h _) fun field hm inner hs =>
      nested_of_forall h fields field hm inner hs

theorem nested_of_forall {P : StructLayout → Prop} (h : ∀ layout, P layout) :
    ∀ fields : List FieldLayout, ∀ field ∈ fields, ∀ inner, field.shape = .aggregate inner →
      inner.Throughout P
  | [] => by simp
  | ⟨_, _, shape, _, _, _, _, _⟩ :: rest =>
    List.forall_mem_cons.2 ⟨inner_of_forall h shape, nested_of_forall h rest⟩

theorem inner_of_forall {P : StructLayout → Prop} (h : ∀ layout, P layout) :
    ∀ (shape : FieldShape) (inner : StructLayout), shape = .aggregate inner → inner.Throughout P
  | .base _ => nofun
  | .aggregate layout => fun _ he => FieldShape.aggregate.inj he ▸ throughout_of_forall h layout

end

/-- A layout of free uniforms finds texture units for all its handles. -/
def UnitsFit (limit : Nat) (layout : StructLayout) : Prop :=
  layout.kind = .uniformSet → ∃ firsts, assignTextureUnits layout.fields limit = .ok firsts

end StructLayout

/-- The layout has an identity, and texture units where it needs them. -/
def SchemaScope.Accepts (scope : SchemaScope) (layout : StructLayout) : Prop :=
  (scope.registry.identityOfHash? layout.contentHash).isSome ∧
    layout.UnitsFit scope.maxTextureUnits

variable {scope : SchemaScope}

theorem unitsOf_isOk {layout : StructLayout} (h : layout.UnitsFit scope.maxTextureUnits) :
    ∃ units, scope.unitsOf layout.kind layout.fields = .ok units := by
  unfold SchemaScope.unitsOf
  split
  · rename_i hk
    obtain ⟨firsts, hf⟩ := h hk
    rw [hf]
    exact ⟨firsts, rfl⟩
  · exact ⟨[], rfl⟩

/-- Every layout at a field of the list has a schema. -/
theorem fieldsToSchema_isOk {fields : List FieldLayout}
    (h : ∀ field ∈ fields, ∀ inner, field.shape = .aggregate inner →
      ∀ kept, ∃ result, inner.toSchema scope kept = .ok result)
    (units : Table String Nat) (kept : SchemaTable) :
    ∃ result, fieldsToSchema scope units kept fields = .ok result := by
  induction fields generalizing kept with
  | nil => exact ⟨_, by rw [fieldsToSchema]⟩
  | cons field rest ih =>
    have hrest := ih fun other hm => h other (List.mem_cons_of_mem _ hm)
    have hfirst : ∃ result, field.toSchema scope units kept = .ok result := by
      have hshape := h field List.mem_cons_self
      obtain ⟨name, typeName, shape, offset, size, alignment, array, qualifiers⟩ := field
      simp only [FieldLayout.toSchema]
      cases shape with
      | base type =>
        cases type with
        | handle kind => exact ⟨_, rfl⟩
        | _ => exact ⟨_, rfl⟩
      | aggregate inner =>
        obtain ⟨⟨schema, after⟩, hs⟩ := hshape inner rfl kept
        simp only [FieldShape.toKind, hs]
        exact ⟨_, rfl⟩
    obtain ⟨⟨first, after⟩, hf⟩ := hfirst
    obtain ⟨⟨others, last⟩, ho⟩ := hrest after
    refine ⟨(first :: others, last), ?_⟩
    rw [fieldsToSchema, hf]
    show (fieldsToSchema scope units after rest >>= _) = _
    rw [ho]
    rfl

/-- A layout that is accepted throughout has a schema. -/
theorem toSchema_isOk {layout : StructLayout} (h : layout.Throughout scope.Accepts)
    (kept : SchemaTable) : ∃ result, layout.toSchema scope kept = .ok result := by
  induction h generalizing kept with
  | @intro layout self _ ih =>
    obtain ⟨hidentity, hunits⟩ := self
    obtain ⟨identity, hi⟩ := Option.isSome_iff_exists.1 hidentity
    obtain ⟨units, hu⟩ := unitsOf_isOk hunits
    obtain ⟨⟨fields, after⟩, hf⟩ := fieldsToSchema_isOk ih units kept
    obtain ⟨name, contentHash, kind, layouts, size, alignment⟩ := layout
    rw [StructLayout.toSchema]
    cases kept.lookup contentHash with
    | some schema => exact ⟨_, rfl⟩
    | none =>
      dsimp only at hi hu hf ⊢
      simp only [hi, hu]
      show ∃ result, (fieldsToSchema scope units kept layouts >>= _) = .ok result
      rw [hf]
      exact ⟨_, rfl⟩

end UniformLayout
