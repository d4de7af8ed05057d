import UniformLayout.Artifact.Wrapper

/-!
# What a source shows of nested types

The generated source of a type says of the types nested in it no more than their names, sizes and
numbers of handles. A stub is a schema that has nothing else; putting stubs in place of all nested
schemas (`TypeSchema.facade`) leaves the source as it is.

Main statement: `TypeSchema.hostSource_facade`.
-/

namespace UniformLayout

/-! ## Stubs -/

/-- A schema with a name, a size and a number of handles. -/
def TypeSchema.stubOf (name : String) (size handles : Nat) : TypeSchema where
  identity := ⟨"", "", name⟩
  kind := .struct
  size := size
  alignment := 0
  fields := [{
    name := "", typeName := "", kind := .handle default, offset := 0, size := 0
    array := some ⟨handles, 0⟩, location := none, unit := none }]

def TypeSchema.stub (schema : TypeSchema) : TypeSchema :=
  .stubOf schema.name schema.size schema.handleCount

def FieldKind.stub : FieldKind → FieldKind
  | .value type => .value type
  | .handle kind => .handle kind
  | .aggregate schema => .aggregate schema.stub

/-- The field with a stub for its schema. -/
def FieldSchema.stub (field : FieldSchema) : FieldSchema := { field with kind := field.kind.stub }

/-- The schema with stubs in all fields. -/
def TypeSchema.facade (schema : TypeSchema) : TypeSchema :=
  { schema with fields := schema.fields.map FieldSchema.stub }

def FieldPlan.stub (plan : FieldPlan) : FieldPlan := { plan with field := plan.field.stub }

def UnitStep.stub (step : UnitStep) : UnitStep := { step with plan := step.plan.stub }

def WrapperScope.facade (scope : WrapperScope) : WrapperScope where
  schema := scope.schema.facade
  plans := scope.plans.map FieldPlan.stub
  runtime := scope.runtime

@[simp] theorem TypeSchema.handleCount_stubOf (name : String) (size handles : Nat) :
    (stubOf name size handles).handleCount = handles := by
  simp [stubOf, handleCount, handleCountOf, FieldSchema.handleCount, FieldKind.handleCount]

@[simp] theorem TypeSchema.name_stub (schema : TypeSchema) : schema.stub.name = schema.name := rfl

@[simp] theorem TypeSchema.size_stub (schema : TypeSchema) : schema.stub.size = schema.size := rfl

@[simp] theorem TypeSchema.handleCount_stub (schema : TypeSchema) :
    schema.stub.handleCount = schema.handleCount :=
  handleCount_stubOf _ _ _

namespace FieldSchema

variable (field : FieldSchema)

@[simp] theorem name_stub : field.stub.name = field.name := rfl

@[simp] theorem offset_stub : field.stub.offset = field.offset := rfl

@[simp] theorem size_stub : field.stub.size = field.size := rfl

@[simp] theorem array_stub : field.stub.array = field.array := rfl

@[simp] theorem location_stub : field.stub.location = field.location := rfl

@[simp] theorem unit_stub : field.stub.unit = field.unit := rfl

@[simp] theorem length_stub : field.stub.length = field.length := rfl

@[simp] theorem stride_stub : field.stub.stride = field.stride := rfl

@[simp] theorem isArray_stub : field.stub.isArray = field.isArray := rfl

@[simp] theorem displayType_stub : field.stub.displayType = field.displayType := rfl

@[simp] theorem elementSize_stub : field.stub.elementSize = field.elementSize := by
  obtain ⟨name, typeName, kind, offset, size, array, location, unit⟩ := field
  cases kind with
  | value type | handle kind | aggregate schema => rfl

@[simp] theorem isPadded_stub : field.stub.isPadded = field.isPadded := by
  unfold isPadded
  rw [array_stub, elementSize_stub]

@[simp] theorem handleCount_stub : field.stub.handleCount = field.handleCount := by
  obtain ⟨name, typeName, kind, offset, size, array, location, unit⟩ := field
  cases kind with
  | value type | handle kind => rfl
  | aggregate schema =>
    simp only [stub, FieldKind.stub, handleCount, FieldKind.handleCount, TypeSchema.handleCount_stub]

end FieldSchema

@[simp] theorem TypeSchema.handleCount_facade (schema : TypeSchema) :
    schema.facade.handleCount = schema.handleCount := by
  obtain ⟨identity, kind, size, alignment, fields⟩ := schema
  simp only [facade, handleCount]
  induction fields with
  | nil => rfl
  | cons field rest ih =>
    rw [List.map_cons, handleCountOf, handleCountOf, FieldSchema.handleCount_stub, ih]

/-! ## Plans -/

namespace FieldPlan

variable (plan : FieldPlan)

@[simp] theorem index_stub : plan.stub.index = plan.index := rfl

@[simp] theorem identifier_stub : plan.stub.identifier = plan.identifier := rfl

@[simp] theorem element_stub : plan.stub.element = plan.element := rfl

@[simp] theorem field_stub : plan.stub.field = plan.field.stub := rfl

/-- Only fields that hold instances have stubs. -/
theorem stub_eq_self (h : plan.child? = none) : plan.stub = plan := by
  obtain ⟨⟨name, typeName, kind, offset, size, array, location, unit⟩, index, identifier, element,
    flag, unitOffset⟩ := plan
  cases kind with
  | value type | handle kind => rfl
  | aggregate schema => cases h

@[simp] theorem host_stub : plan.stub.host = plan.host := by
  obtain ⟨⟨name, typeName, kind, offset, size, array, location, unit⟩, index, identifier, element,
    flag, unitOffset⟩ := plan
  cases kind with
  | value type | handle kind | aggregate schema => rfl

@[simp] theorem child?_stub : plan.stub.child? = plan.child?.map TypeSchema.stub := by
  obtain ⟨⟨name, typeName, kind, offset, size, array, location, unit⟩, index, identifier, element,
    flag, unitOffset⟩ := plan
  cases kind with
  | value type | handle kind | aggregate schema => rfl

@[simp] theorem storage_stub : plan.stub.storage = plan.storage := by
  unfold storage
  simp only [field_stub, FieldSchema.array_stub, host_stub, element_stub]

@[simp] theorem isAggregate_stub : plan.stub.isAggregate = plan.isAggregate := by
  unfold isAggregate
  rw [child?_stub, Option.isSome_map]

@[simp] theorem flagCount_stub : plan.stub.flagCount = plan.flagCount := by
  unfold flagCount
  simp only [isAggregate_stub, field_stub, FieldSchema.length_stub]

@[simp] theorem elementMembers_stub : plan.stub.elementMembers = plan.elementMembers := by
  unfold elementMembers
  simp only [host_stub, field_stub, FieldSchema.stride_stub, FieldSchema.elementSize_stub]

end FieldPlan

theorem planFrom_stub (owner : String) (state : PlanState) (index : Nat)
    (fields : List FieldSchema) :
    planFrom owner state index (fields.map FieldSchema.stub) =
      (planFrom owner state index fields).map FieldPlan.stub := by
  induction fields generalizing state index with
  | nil => rfl
  | cons field rest ih =>
    rw [List.map_cons, planFrom, planFrom, List.map_cons]
    have hpadded := field.isPadded_stub
    have hcount := field.handleCount_stub
    obtain ⟨name, typeName, kind, offset, size, array, location, unit⟩ := field
    cases kind with
    | value type | handle kind | aggregate schema =>
      dsimp only
      rw [hpadded, hcount, ih]
      rfl

theorem TypeSchema.plans_facade (schema : TypeSchema) :
    schema.facade.plans = schema.plans.map FieldPlan.stub :=
  planFrom_stub _ _ _ _

/-! ## Plain data -/

theorem dataMembersFrom_stub (size cursor pads : Nat) (plans : List FieldPlan) :
    dataMembersFrom size cursor pads (plans.map FieldPlan.stub) =
      dataMembersFrom size cursor pads plans := by
  induction plans generalizing cursor pads with
  | nil => rfl
  | cons plan rest ih =>
    rw [List.map_cons, dataMembersFrom, dataMembersFrom]
    simp only [FieldPlan.field_stub, FieldSchema.offset_stub, FieldSchema.size_stub,
      FieldPlan.identifier_stub, FieldPlan.storage_stub, ih]
    rfl

theorem TypeSchema.header_facade (schema : TypeSchema) : schema.facade.header = schema.header := by
  unfold header facade
  simp only [List.map_map, Function.comp_def, FieldSchema.offset_stub, FieldSchema.displayType_stub,
    FieldSchema.name_stub, List.isEmpty_map]
  rfl

theorem TypeSchema.dataCode_facade (schema : TypeSchema) (plans : List FieldPlan) :
    schema.facade.dataCode (plans.map FieldPlan.stub) = schema.dataCode plans := by
  unfold dataCode dataMembers assertions
  simp only [header_facade, dataMembersFrom_stub, List.flatMap_map, List.map_map, Function.comp_def,
    FieldPlan.element_stub, FieldPlan.elementMembers_stub, FieldPlan.identifier_stub,
    FieldPlan.field_stub, FieldSchema.offset_stub]
  rfl

/-! ## Wrappers -/

namespace WrapperScope

variable (scope : WrapperScope)

@[simp] theorem isUniformSet_facade : scope.facade.isUniformSet = scope.isUniformSet := rfl

@[simp] theorem name_facade : scope.facade.name = scope.name := rfl

@[simp] theorem path_facade (type : String) : scope.facade.path type = scope.path type := rfl

@[simp] theorem plans_facade : scope.facade.plans = scope.plans.map FieldPlan.stub := rfl

@[simp] theorem bindsUnits_facade : scope.facade.bindsUnits = scope.bindsUnits := by
  unfold bindsUnits facade TypeSchema.bindsUnits
  rw [TypeSchema.handleCount_facade]
  rfl

@[simp] theorem flagCount_facade : scope.facade.flagCount = scope.flagCount := by
  unfold flagCount
  simp only [plans_facade, List.map_map, Function.comp_def, FieldPlan.flagCount_stub]

@[simp] theorem children_facade : scope.facade.children =
    scope.children.map fun (plan, schema) => (plan.stub, schema.stub) := by
  unfold children
  simp only [plans_facade, List.filterMap_map, List.map_filterMap, Function.comp_def,
    FieldPlan.child?_stub, Option.map_map]

end WrapperScope

namespace FieldPlan

variable (scope : WrapperScope) (plan : FieldPlan)

@[simp] theorem wrapperMember?_facade :
    plan.stub.wrapperMember? scope.facade = plan.wrapperMember? scope := by
  obtain ⟨⟨name, typeName, kind, offset, size, array, location, unit⟩, index, identifier, element,
    flag, unitOffset⟩ := plan
  cases kind with
  | value type | handle kind | aggregate schema => rfl

@[simp] theorem initialMember?_stub : plan.stub.initialMember? = plan.initialMember? := by
  obtain ⟨⟨name, typeName, kind, offset, size, array, location, unit⟩, index, identifier, element,
    flag, unitOffset⟩ := plan
  cases kind with
  | value type | handle kind => rfl
  | aggregate schema =>
    cases array with
    | none | some shape => rfl

@[simp] theorem childUnit_stub (schema : TypeSchema) (first : UnitExpr) :
    plan.stub.childUnit schema.stub first = plan.childUnit schema first := by
  unfold childUnit
  rw [TypeSchema.handleCount_stub]
  rfl

theorem initialStep?_stub : plan.stub.initialStep? = plan.initialStep?.map UnitStep.stub := by
  have hchild := plan.childUnit_stub
  obtain ⟨⟨name, typeName, kind, offset, size, array, location, unit⟩, index, identifier, element,
    flag, unitOffset⟩ := plan
  cases unit with
  | none => rfl
  | some unit =>
    cases kind with
    | value type | handle kind => rfl
    | aggregate schema =>
      exact congrArg (fun unit => some (UnitStep.mk _ "this" unit)) (hchild schema _)

theorem bindStep?_stub : plan.stub.bindStep? = plan.bindStep?.map UnitStep.stub := by
  have hchild := plan.childUnit_stub
  unfold bindStep?
  rw [field_stub, FieldSchema.handleCount_stub]
  split
  · rfl
  · obtain ⟨⟨name, typeName, kind, offset, size, array, location, unit⟩, index, identifier, element,
      flag, unitOffset⟩ := plan
    cases kind with
    | value type | handle kind => rfl
    | aggregate schema =>
      exact congrArg (fun unit => some (UnitStep.mk _ "self" unit)) (hchild schema _)

@[simp] theorem copyChildren_stub : plan.stub.copyChildren = plan.copyChildren := rfl

@[simp] theorem collectChanges_facade :
    plan.stub.collectChanges scope.facade = plan.collectChanges scope := by
  obtain ⟨⟨name, typeName, kind, offset, size, array, location, unit⟩, index, identifier, element,
    flag, unitOffset⟩ := plan
  cases kind with
  | value type | handle kind => rfl
  | aggregate schema =>
    cases array with
    | none | some shape => rfl

@[simp] theorem registerHandle_facade (kind : HandleKind) :
    plan.registerHandle scope.facade kind = plan.registerHandle scope kind := by
  unfold registerHandle
  rw [WrapperScope.bindsUnits_facade]
  rfl

@[simp] theorem accessors_facade : plan.stub.accessors scope.facade = plan.accessors scope := by
  have hregister := plan.registerHandle_facade scope
  obtain ⟨⟨name, typeName, kind, offset, size, array, location, unit⟩, index, identifier, element,
    flag, unitOffset⟩ := plan
  cases kind with
  | value type | aggregate schema =>
    cases array with
    | none | some shape => rfl
  | handle kind =>
    rw [stub_eq_self _ rfl]
    unfold accessors handleAccessors handleArrayAccessors
    simp only [hregister]
    rfl

end FieldPlan

@[simp] theorem UnitStep.code_stub (step : UnitStep) : step.stub.code = step.code := by
  have haggregate := step.plan.isAggregate_stub
  unfold code
  rw [show step.stub.plan = step.plan.stub from rfl, haggregate]
  rfl

namespace WrapperScope

variable (scope : WrapperScope)

theorem structCode_facade : scope.facade.structCode = scope.structCode := by
  unfold structCode
  simp only [isUniformSet_facade, bindsUnits_facade, flagCount_facade, name_facade, plans_facade,
    List.length_map, List.filterMap_map, Function.comp_def, FieldPlan.wrapperMember?_facade]

/-- The steps of a facade are the same, with stubs. -/
theorem steps_facade {scope : WrapperScope} {step? : FieldPlan → Option UnitStep}
    (h : ∀ plan : FieldPlan, step? plan.stub = (step? plan).map UnitStep.stub) :
    scope.facade.plans.filterMap step? = (scope.plans.filterMap step?).map UnitStep.stub := by
  rw [plans_facade, List.filterMap_map, List.map_filterMap]
  exact congrArg (scope.plans.filterMap ·) (funext h)

theorem constructor_facade : scope.facade.constructor = scope.constructor := by
  unfold constructor
  have hplan : ∀ step : UnitStep, step.stub.plan = step.plan.stub := fun _ => rfl
  rw [steps_facade FieldPlan.initialStep?_stub]
  simp only [isUniformSet_facade, bindsUnits_facade, flagCount_facade, name_facade, plans_facade,
    List.filterMap_map, List.filter_map, List.map_map, List.isEmpty_map, Function.comp_def, hplan,
    FieldPlan.initialMember?_stub, FieldPlan.isAggregate_stub, UnitStep.code_stub,
    FieldPlan.field_stub, FieldSchema.location_stub]

theorem locationMethods_facade : scope.facade.locationMethods = scope.locationMethods := by
  unfold locationMethods
  simp only [plans_facade, List.map_map, Function.comp_def, FieldPlan.field_stub,
    FieldSchema.name_stub, FieldPlan.index_stub]

theorem unitMethod_facade : scope.facade.unitMethod = scope.unitMethod := by
  unfold unitMethod
  rw [steps_facade FieldPlan.bindStep?_stub]
  simp only [List.map_map, Function.comp_def, UnitStep.code_stub]

theorem dataMethods_facade : scope.facade.dataMethods = scope.dataMethods := by
  unfold dataMethods
  simp only [children_facade, name_facade, List.map_map, Function.comp_def,
    FieldPlan.copyChildren_stub]

theorem changeMethods_facade : scope.facade.changeMethods = scope.changeMethods := by
  unfold changeMethods
  simp only [plans_facade, path_facade, List.flatMap_map, List.isEmpty_map,
    FieldPlan.collectChanges_facade]

theorem methodCode_facade : scope.facade.methodCode = scope.methodCode := by
  unfold methodCode
  simp only [constructor_facade, locationMethods_facade, unitMethod_facade, dataMethods_facade,
    changeMethods_facade, isUniformSet_facade, bindsUnits_facade, name_facade, plans_facade,
    List.map_map, List.any_map, Function.comp_def, FieldPlan.accessors_facade,
    FieldPlan.field_stub, FieldSchema.isArray_stub]
  rfl

theorem trackingCode_facade : scope.facade.trackingCode = scope.trackingCode := by
  unfold trackingCode
  simp only [name_facade, path_facade, children_facade, flagCount_facade, List.map_map,
    Function.comp_def, FieldPlan.identifier_stub]

theorem wrapperCode_facade : scope.facade.wrapperCode = scope.wrapperCode := by
  unfold wrapperCode defaultCode
  rw [structCode_facade, methodCode_facade, trackingCode_facade, name_facade]

end WrapperScope

/-- **Facades.** Only names, sizes and numbers of handles of nested schemas reach the source. -/
theorem TypeSchema.hostSource_facade (schema : TypeSchema) (runtime : String) :
    schema.facade.hostSource runtime = schema.hostSource runtime := by
  unfold hostSource
  dsimp only
  rw [plans_facade, dataCode_facade]
  exact congrArg (fun code => Code.renderAll 0 (schema.dataCode schema.plans ++ code))
    (WrapperScope.wrapperCode_facade ⟨schema, schema.plans, runtime⟩)

end UniformLayout
