import UniformLayout.Artifact.Code
import UniformLayout.Artifact.Plan

/-!
# Texture units in generated code

Generated code computes a texture unit from the first unit of its field, or of its wrapper, and from the
index of an element. Such an expression is printed, and it has a value. A `UnitStep` gives a field its
units: it stores them in the plain data, or hands them on to the instances that the field holds.

Main statements: `FieldPlan.value?_elementUnit` and `FieldPlan.value?_childUnit`.
-/

namespace UniformLayout

/-! ## Expressions -/

/-- How a texture unit is computed. `given` is the first unit of the wrapper, and `index` the variable
that counts the elements. -/
inductive UnitExpr where
  | number (n : Nat)
  | given
  | index (name : String)
  | sum (a b : UnitExpr)
  | product (a b : UnitExpr)
  | cast (a : UnitExpr) (type : String)

namespace UnitExpr

def enclosed (isInner : Bool) (text : String) : String := if isInner then s!"({text})" else text

/-- The text of an operand. Sums are enclosed from level 1 on, and products from level 2 on. -/
def textAt (level : Nat) : UnitExpr → String
  | .number n => toString n
  | .given => "first"
  | .index name => name
  | .sum a b => enclosed (0 < level) s!"{a.textAt 0} + {b.textAt 1}"
  | .product a b => enclosed (1 < level) s!"{a.textAt 1} * {b.textAt 2}"
  | .cast a type => s!"{a.textAt 2} as {type}"

def text (unit : UnitExpr) : String := unit.textAt 0

/-- The value for the element at `index`, where the wrapper's first unit is `first`. There is none if
this unit is needed and not known. Values have no bound here, so a cast keeps the one it is given. -/
def value? (first : Option Nat) (index : Nat) : UnitExpr → Option Nat
  | .number n => some n
  | .given => first
  | .index _ => some index
  | .sum a b => (a.value? first index).bind fun n => (b.value? first index).map (n + ·)
  | .product a b => (a.value? first index).bind fun n => (b.value? first index).map (n * ·)
  | .cast a _ => a.value? first index

end UnitExpr

theorem FieldSchema.eq_zero_of_not_isArray {field : FieldSchema} {element : Nat}
    (h : field.isArray = false) (hlt : element < field.length) : element = 0 := by
  unfold FieldSchema.length at hlt
  rw [Option.isNone_iff_eq_none.1 (Option.isSome_eq_false_iff.1 h)] at hlt
  exact Nat.lt_one_iff.1 hlt

namespace FieldPlan

/-- The first unit of the field, counted from the wrapper's first one. -/
def start (plan : FieldPlan) : UnitExpr :=
  if plan.unitOffset = 0 then .given else .sum .given (.number plan.unitOffset)

/-- The unit of an element of a field of handles that has its units from `first` on. -/
def elementUnit (plan : FieldPlan) (first : UnitExpr) (index type : String) : UnitExpr :=
  if plan.field.isArray then .sum first (.cast (.index index) type) else first

/-- The first unit of an instance in a field that has its units from `first` on. -/
def childUnit (plan : FieldPlan) (schema : TypeSchema) (first : UnitExpr) : UnitExpr :=
  if plan.field.isArray then
    .sum first (.product (.cast (.index "i") "u32") (.number schema.handleCount))
  else first

section

variable (plan : FieldPlan) {first : UnitExpr} {known : Option Nat} {element n : Nat}

theorem value?_start (n : Nat) : plan.start.value? (some n) element = some (n + plan.unitOffset) := by
  unfold start
  split
  · rename_i hzero
    rw [hzero]
    rfl
  · rfl

/-- The elements of a field of handles have consecutive units. -/
theorem value?_elementUnit (h : first.value? known element = some n)
    (hlt : element < plan.field.length) (index type : String) :
    (plan.elementUnit first index type).value? known element = some (n + element) := by
  unfold elementUnit
  cases ha : plan.field.isArray with
  | true => simp [UnitExpr.value?, h]
  | false =>
    obtain rfl := FieldSchema.eq_zero_of_not_isArray ha hlt
    simpa using h

/-- The instances in a field have consecutive stretches of units, each as long as it needs. -/
theorem value?_childUnit (h : first.value? known element = some n)
    (hlt : element < plan.field.length) (schema : TypeSchema) :
    (plan.childUnit schema first).value? known element =
      some (n + element * schema.handleCount) := by
  unfold childUnit
  cases ha : plan.field.isArray with
  | true => simp [UnitExpr.value?, h]
  | false =>
    obtain rfl := FieldSchema.eq_zero_of_not_isArray ha hlt
    simpa using h

end

end FieldPlan

/-! ## Steps -/

/-- What generated code does to give a field its units: `unit` is stored for each element of a field of
handles, and handed on to each instance in any other field. `owner` is where the field is found. -/
structure UnitStep where
  plan : FieldPlan
  owner : String
  unit : UnitExpr

namespace UnitStep

/-- The place of an array element's unit, where `element` is a reference to it. -/
def elementPlace (step : UnitStep) : String :=
  if step.plan.element.isSome then "element.value" else "*element"

def code (step : UnitStep) : Code :=
  let place := s!"{step.owner}.{step.plan.identifier}"
  match step.plan.isAggregate, step.plan.field.isArray with
  | true, true =>
    Code.braced s!"for (i, child) in {place}.iter_mut().enumerate()"
      [.line s!"child.bind_texture_units({step.unit.text});"]
  | true, false => .line s!"{place}.bind_texture_units({step.unit.text});"
  | false, true =>
    Code.braced s!"for (i, element) in {place}.iter_mut().enumerate()"
      [.line s!"{step.elementPlace} = {step.unit.text};"]
  | false, false => .line s!"{place} = {step.unit.text};"

end UnitStep

/-- The wrapper of the schema holds handles whose texture units are given to it from outside. -/
def TypeSchema.bindsUnits (schema : TypeSchema) : Bool :=
  !schema.isUniformSet && 0 < schema.handleCount

namespace FieldPlan

/-- The step of the constructor. Only the fields of free uniforms have units of their own. -/
def initialStep? (plan : FieldPlan) : Option UnitStep :=
  plan.field.unit.bind fun unit =>
    match plan.field.kind with
    | .value _ => none
    | .handle _ => some ⟨plan, "data", plan.elementUnit (.number unit) "i" "i32"⟩
    | .aggregate schema => some ⟨plan, "this", plan.childUnit schema (.number unit)⟩

/-- The step of the method that is called with the wrapper's first unit. -/
def bindStep? (plan : FieldPlan) : Option UnitStep :=
  if plan.field.handleCount = 0 then none
  else match plan.field.kind with
    | .value _ => none
    | .handle _ => some ⟨plan, "self.__data", .cast (plan.elementUnit plan.start "i" "u32") "i32"⟩
    | .aggregate schema => some ⟨plan, "self", plan.childUnit schema plan.start⟩

/-- The unit under which the handle of an element is registered, if the field has units. -/
def registeredUnit? (bindsUnits : Bool) (plan : FieldPlan) : Option UnitExpr :=
  let first := (plan.field.unit.map .number).or (if bindsUnits then some plan.start else none)
  first.map (plan.elementUnit · "index" "u32")

end FieldPlan

end UniformLayout
