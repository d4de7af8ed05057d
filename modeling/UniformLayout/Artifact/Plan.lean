import UniformLayout.Artifact.HostType
import UniformLayout.Artifact.Identifier

/-!
# Field plans

How each field of a schema is stored and reached in a generated source: its identifier, the struct
that pads its array elements if they need one, its first dirty flag in the wrapper and the number of
handles declared before it.

Main statement: `elementName_first`.
-/

namespace UniformLayout

/-- How one field appears in a generated source. -/
structure FieldPlan where
  field : FieldSchema
  index : Nat
  identifier : String
  /-- The struct of one array element and its padding, where the stride exceeds the element. -/
  element : Option String
  /-- The first dirty flag of the field. Fields that hold instances have none. -/
  flag : Nat
  /-- The number of handles declared before the field. -/
  unitOffset : Nat

namespace FieldPlan

def host (plan : FieldPlan) : HostType := plan.field.kind.hostType

/-- The type of the field in the plain-data struct. -/
def storage (plan : FieldPlan) : HostType :=
  match plan.field.array with
  | none => plan.host
  | some array => .array (plan.element.elim plan.host .named) array.length

/-- The schema of the instances that the field holds. -/
def child? (plan : FieldPlan) : Option TypeSchema :=
  match plan.field.kind with
  | .aggregate schema => some schema
  | _ => none

def isAggregate (plan : FieldPlan) : Bool := plan.child?.isSome

/-- The field is a single boolean or an array of them. -/
def isBool (plan : FieldPlan) : Bool :=
  match plan.field.kind with
  | .value (.scalar .bool) => true
  | _ => false

def flagCount (plan : FieldPlan) : Nat := if plan.isAggregate then 0 else plan.field.length

end FieldPlan

/-- The field is an array with padding between its elements. -/
def FieldSchema.isPadded (field : FieldSchema) : Bool :=
  field.array.any fun array => array.stride != field.elementSize

/-- The name of the struct for the padded elements of a field, told apart from those before. -/
def elementName (owner identifier : String) (used : List String) : String :=
  let stem := owner ++ Text.pascalCase identifier ++ "Element"
  (Text.firstNumbered? (!used.contains ·) stem "" (used.length + 1) 0).getD stem

/-- The name is the first candidate that is none of those before. -/
theorem elementName_first (owner identifier : String) (used : List String) :
    ∃ n ≤ used.length,
      elementName owner identifier used =
        Text.numbered (owner ++ Text.pascalCase identifier ++ "Element") "" n ∧
      elementName owner identifier used ∉ used ∧
      ∀ k < n, Text.numbered (owner ++ Text.pascalCase identifier ++ "Element") "" k ∈ used := by
  let stem := owner ++ Text.pascalCase identifier ++ "Element"
  have found : (Text.firstNumbered? (!used.contains ·) stem "" (used.length + 1) 0).isSome :=
    Text.firstNumbered?_isSome used (by simp) (Nat.lt_succ_self _)
  obtain ⟨name, hf⟩ := Option.isSome_iff_exists.1 found
  have hname : elementName owner identifier used = name := by
    rw [elementName, hf, Option.getD_some]
  obtain ⟨n, hn, hnumbered, hfree, hbefore⟩ := Text.firstNumbered?_eq_some hf
  simp only [Nat.zero_add] at hnumbered hbefore
  rw [hname]
  exact ⟨n, Nat.le_of_lt_succ hn, hnumbered, by simpa using hfree,
    fun k hk => by simpa using hbefore k hk⟩

/-- The name is none of those before. -/
theorem elementName_not_mem (owner identifier : String) (used : List String) :
    elementName owner identifier used ∉ used := by
  obtain ⟨n, -, -, hfree, -⟩ := elementName_first owner identifier used
  exact hfree

/-- What planning has used up so far. -/
structure PlanState where
  names : UsedNames := {}
  elements : List String := []
  flag : Nat := 0
  unitOffset : Nat := 0
  deriving Inhabited

/-- Plans the fields from the one at `index` on. -/
def planFrom (owner : String) (state : PlanState) (index : Nat) : List FieldSchema → List FieldPlan
  | [] => []
  | field :: rest =>
    let isAggregate := match field.kind with
      | .aggregate _ => true
      | _ => false
    let identifier := state.names.choose isAggregate field.name
    let element :=
      if field.isPadded then some (elementName owner identifier state.elements) else none
    let after : PlanState :=
      { names := state.names.add isAggregate identifier
        elements := element.toList ++ state.elements
        flag := state.flag + if isAggregate then 0 else field.length
        unitOffset := state.unitOffset + field.handleCount }
    let plan : FieldPlan :=
      { field, index, identifier, element, flag := state.flag, unitOffset := state.unitOffset }
    plan :: planFrom owner after (index + 1) rest

def TypeSchema.plans (schema : TypeSchema) : List FieldPlan :=
  planFrom schema.name {} 0 schema.fields

end UniformLayout
