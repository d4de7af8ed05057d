import UniformLayout.Artifact.Accessor
import UniformLayout.Artifact.Data

/-!
# Wrappers

The part of a generated source that tracks changes: a struct around the plain data with its
constructor, accessors, locations or texture units, packing, and lists of changes.
`TypeSchema.hostSource` is the whole source of a type. It depends on the schema and the path of the
runtime crate only.

Main statement: `TypeSchema.hostSource_eq_append`.
-/

namespace UniformLayout

namespace FieldPlan

/-- The wrapper's own member for a field: handles and instances live beside the plain data. -/
def wrapperMember? (scope : WrapperScope) (plan : FieldPlan) : Option String :=
  let repeated (type : String) : String :=
    plan.field.array.elim type fun array => s!"[{type}; {array.length}]"
  match plan.field.kind with
  | .value _ => none
  | .handle _ =>
    let handle := "Option<" ++ scope.path "TextureHandle" ++ ">"
    some s!"{plan.identifier}: {repeated handle},"
  | .aggregate schema => some s!"{plan.identifier}: {repeated schema.name},"

/-- The first value of the wrapper's own member for a field. -/
def initialMember? (plan : FieldPlan) : Option String :=
  let name := plan.identifier
  match plan.field.kind, plan.field.array with
  | .value _, _ => none
  | .handle _, some array => some s!"{name}: [None; {array.length}],"
  | .handle _, none => some s!"{name}: None,"
  | .aggregate schema, some _ => some s!"{name}: std::array::from_fn(|_| {schema.name}::new()),"
  | .aggregate schema, none => some s!"{name}: {schema.name}::new(),"

/-- The code that copies the instances in a field into the plain data. -/
def copyChildren (plan : FieldPlan) : Code :=
  let name := plan.identifier
  if plan.field.isArray then
    Code.braced s!"for (slot, child) in data.{name}.iter_mut().zip(&self.{name})"
      [.line "*slot = child.data();"]
  else .line s!"data.{name} = self.{name}.data();"

def pushChange (scope : WrapperScope) (plan : FieldPlan) (condition path offset location : String) :
    Code :=
  let type := scope.path "DirtyField"
  Code.braced s!"if {condition}"
    [.group s!"set.push({type} \x7b"
      (Code.lines
        [s!"path: {path},", s!"offset: {offset},", s!"size: {plan.field.elementSize},",
          s!"location: {location},"])
      "\x7d);"]

/-- The code that lists the changes at or below a field. -/
def collectChanges (scope : WrapperScope) (plan : FieldPlan) : List Code :=
  let field := plan.field
  let offset := plus "base" field.offset
  let elementOffset := s!"{offset} + index as u32 * {field.stride}"
  let location := if scope.isUniformSet then s!"self.__locations[{plan.index}]" else "None"
  let elementLocation :=
    if scope.isUniformSet then s!"{location}.map(|location| location + index as u32)" else location
  match field.kind, field.isArray with
  | .aggregate _, false =>
    let path := s!"&format!(\"\x7b\x7d{field.name}.\", prefix)"
    [.line s!"self.{plan.identifier}.collect_dirty_fields({path}, {offset}, set);"]
  | .aggregate _, true =>
    let path := s!"&format!(\"\x7b\x7d{field.name}[\x7b\x7d].\", prefix, index)"
    [Code.braced s!"for (index, child) in self.{plan.identifier}.iter().enumerate()"
      [.line s!"child.collect_dirty_fields({path}, {elementOffset}, set);"]]
  | _, false =>
    [plan.pushChange scope (plan.dirtyFlag none) s!"format!(\"\x7b\x7d{field.name}\", prefix)" offset
      location]
  | _, true =>
    [Code.braced s!"for index in 0..{field.length}"
      [plan.pushChange scope (plan.dirtyFlag (some "index"))
        s!"format!(\"\x7b\x7d{field.name}[\x7b\x7d]\", prefix, index)" elementOffset
        elementLocation]]

end FieldPlan

namespace WrapperScope

def name (scope : WrapperScope) : String := scope.schema.name

/-- The fields that hold instances, with the schemas of these. -/
def children (scope : WrapperScope) : List (FieldPlan × TypeSchema) :=
  scope.plans.filterMap fun plan => plan.child?.map (plan, ·)

def structCode (scope : WrapperScope) : List Code :=
  let locations :=
    if scope.isUniformSet then [s!"__locations: [Option<u32>; {scope.plans.length}],"] else []
  let firstUnit := if scope.bindsUnits then ["__first_unit: Option<u32>,"] else []
  Code.lines ["#[allow(non_camel_case_types)]", "#[derive(Debug, Clone, PartialEq)]"] ++
    [Code.braced s!"pub struct {scope.name}" (Code.lines
      (s!"__data: {dataName scope.name}," :: scope.plans.filterMap (·.wrapperMember? scope) ++
        locations ++ firstUnit ++ [s!"__dirty: [bool; {scope.flagCount}],"]))]

def defaultCode (scope : WrapperScope) : Code :=
  Code.braced s!"impl Default for {scope.name}"
    [Code.braced "fn default() -> Self" [.line "Self::new()"]]

/-- The constructor. Free uniforms store their texture units in the plain data, and hand them down
to the instances that they hold. -/
def constructor (scope : WrapperScope) : Code :=
  let steps := scope.plans.filterMap FieldPlan.initialStep?
  let handles := steps.filter fun step => !step.plan.isAggregate
  let handDown := steps.filter fun step => step.plan.isAggregate
  let locations := scope.plans.map fun plan =>
    match plan.field.location with
    | some location => s!"Some({location})"
    | none => "None"
  let locationList := String.intercalate ", " locations
  let members := Code.lines ("__data: data," :: scope.plans.filterMap (·.initialMember?) ++
    (if scope.isUniformSet then [s!"__locations: [{locationList}],"] else []) ++
    (if scope.bindsUnits then ["__first_unit: None,"] else []) ++
    [s!"__dirty: [false; {scope.flagCount}],"])
  let binding := if handles.isEmpty then "let" else "let mut"
  let value :=
    if handDown.isEmpty then [Code.braced "Self" members]
    else .group "let mut this = Self \x7b" members "\x7d;" :: handDown.map UnitStep.code ++
      [.line "this"]
  Code.braced "pub fn new() -> Self"
    (.line s!"{binding} data: {dataName scope.name} = bytemuck::Zeroable::zeroed();" ::
      handles.map UnitStep.code ++ value)

/-- The methods that record and give the locations of free uniforms. -/
def locationMethods (scope : WrapperScope) : List Code :=
  let arms (value : FieldPlan → String) : List String :=
    scope.plans.map fun plan => s!"\"{plan.field.name}\" => {value plan},"
  [.line "/// Record the host location of a uniform. Returns `false` for unknown names.",
    Code.braced "pub fn locate(&mut self, field: &str, location: u32) -> bool"
      [.group "let index = match field \x7b"
        (Code.lines (arms (fun plan => toString plan.index) ++ ["_ => return false,"])) "\x7d;",
        .line "self.__locations[index] = Some(location);",
        .line "true"],
    Code.blank,
    Code.braced "pub fn location(&self, field: &str) -> Option<u32>"
      [Code.braced "match field"
        (Code.lines
          (arms (fun plan => s!"self.__locations[{plan.index}]") ++ ["_ => None,"]))]]

/-- The method that gives the handles of the wrapper consecutive texture units. -/
def unitMethod (scope : WrapperScope) : List Code :=
  let steps := scope.plans.filterMap FieldPlan.bindStep?
  [.line "/// Give the samplers of this struct consecutive texture units from `first`.",
    Code.braced "pub fn bind_texture_units(&mut self, first: u32)"
      (.line "self.__first_unit = Some(first);" :: steps.map UnitStep.code)]

/-- The methods that give the plain data and its bytes. -/
def dataMethods (scope : WrapperScope) : List Code :=
  let copies := scope.children.map fun (plan, _) => plan.copyChildren
  let body : List Code :=
    if copies.isEmpty then [.line "self.__data"]
    else .line "let mut data = self.__data;" :: copies ++ [.line "data"]
  [.line "/// Plain-data image with every child's current values.",
    Code.braced s!"pub fn data(&self) -> {dataName scope.name}" body,
    Code.blank,
    Code.braced "pub fn to_bytes(&self) -> Vec<u8>"
      [.line "bytemuck::bytes_of(&self.data()).to_vec()"]]

def changeMethods (scope : WrapperScope) : List Code :=
  let set := scope.path "DirtyFieldSet"
  let body : List Code :=
    if scope.plans.isEmpty then [.line "let _ = (prefix, base, set);"]
    else scope.plans.flatMap (·.collectChanges scope)
  [.line "/// Leaves modified since the last `set_clean`, with absolute offsets.",
    Code.braced s!"pub fn dirty_fields(&self) -> {set}"
      (Code.lines
        [s!"let mut set = {set}::new();", "self.collect_dirty_fields(\"\", 0, &mut set);", "set"]),
    Code.blank,
    .line "#[doc(hidden)]",
    Code.braced s!"pub fn collect_dirty_fields(&self, prefix: &str, base: u32, set: &mut {set})" body]

def outOfRangeMethod (scope : WrapperScope) : Code :=
  let error := scope.path "AccessError"
  Code.braced s!"fn out_of_range(field: &str, index: usize, len: usize) -> {error}"
    [.line s!"{error}::IndexOutOfRange \x7b field: field.to_string(), index, len \x7d"]

def methodCode (scope : WrapperScope) : Code :=
  let schema := scope.schema
  let constants := Code.lines
    [s!"pub const SIZE: usize = {schema.size};",
      s!"pub const ALIGNMENT: usize = {schema.alignment};",
      s!"pub const PERSISTENT_ID: &'static str = \"{schema.identity.persistentId}\";"]
  let hasArrays := scope.plans.any fun plan => plan.field.isArray
  let parts : List (List Code) :=
    [scope.constructor] :: scope.plans.map (·.accessors scope) ++
      (if scope.isUniformSet then [scope.locationMethods] else []) ++
      (if scope.bindsUnits then [scope.unitMethod] else []) ++
      [scope.dataMethods, scope.changeMethods] ++
      (if hasArrays then [[scope.outOfRangeMethod]] else [])
  Code.braced s!"impl {scope.name}" (constants ++ Code.spaced parts)

/-- The wrapper's tracking of changes, through which the runtime sees it. -/
def trackingCode (scope : WrapperScope) : Code :=
  let tracking := scope.path "DirtyState"
  let children := scope.children.map fun (plan, _) => plan.identifier
  let conditions := "self.__dirty.iter().any(|dirty| *dirty)" ::
    children.map fun name => s!"{tracking}::is_dirty(&self.{name})"
  Code.braced s!"impl {tracking} for {scope.name}"
    [Code.braced "fn is_dirty(&self) -> bool" [.line (String.intercalate " || " conditions)],
      Code.blank,
      Code.braced "fn set_clean(&mut self)" (Code.lines
        (s!"self.__dirty = [false; {scope.flagCount}];" ::
          children.map fun name => s!"{tracking}::set_clean(&mut self.{name});"))]

/-- The wrapper with everything that belongs to it. -/
def wrapperCode (scope : WrapperScope) : List Code :=
  scope.structCode ++
    [Code.blank, scope.defaultCode, Code.blank, scope.methodCode, Code.blank, scope.trackingCode]

end WrapperScope

/-- The generated source of a type. `runtime` is the path of the crate that it uses. -/
def TypeSchema.hostSource (schema : TypeSchema) (runtime : String) : String :=
  let plans := schema.plans
  let scope : WrapperScope := { schema, plans, runtime }
  Code.renderAll 0 (schema.dataCode plans ++ scope.wrapperCode)

/-- The plain data stands in front of the wrapper, and does not depend on the runtime path. -/
theorem TypeSchema.hostSource_eq_append (schema : TypeSchema) (runtime : String) :
    schema.hostSource runtime =
      Code.renderAll 0 (schema.dataCode schema.plans) ++
        Code.renderAll 0 (WrapperScope.wrapperCode ⟨schema, schema.plans, runtime⟩) :=
  Code.renderAll_append 0 _ _

end UniformLayout
