import UniformLayout.Artifact.Unit

/-!
# Accessors

The methods through which a generated wrapper gives access to one field: values are read and
written, handles are stored and passed on to the host, and instances are borrowed. A write sets the
element's dirty flag. In the wrapper of a free-uniform set, a write to a uniform without a location
is dropped.
-/

namespace UniformLayout

/-- What the code of every wrapper method depends on. `runtime` is the path of the crate that the
generated source uses. -/
structure WrapperScope where
  schema : TypeSchema
  plans : List FieldPlan
  runtime : String

namespace WrapperScope

/-- The wrapper gathers free uniforms and keeps a location for each. -/
def isUniformSet (scope : WrapperScope) : Bool := scope.schema.isUniformSet

def bindsUnits (scope : WrapperScope) : Bool := scope.schema.bindsUnits

def flagCount (scope : WrapperScope) : Nat :=
  (scope.plans.map FieldPlan.flagCount).foldr (· + ·) 0

def path (scope : WrapperScope) (type : String) : String := s!"{scope.runtime}::{type}"

def result (scope : WrapperScope) (type : String) : String :=
  let error := scope.path "AccessError"
  s!"Result<{type}, {error}>"

end WrapperScope

def plus (base : String) (offset : Nat) : String :=
  if offset = 0 then base else s!"{base} + {offset}"

namespace FieldPlan

/-- The place of an element in the plain data `data`. -/
def place (plan : FieldPlan) (data index : String) : String :=
  match plan.field.array, plan.element with
  | none, _ => s!"{data}.{plan.identifier}"
  | some _, some _ => s!"{data}.{plan.identifier}[{index}].value"
  | some _, none => s!"{data}.{plan.identifier}[{index}]"

/-- The dirty flag of an element; a field that is not an array has one flag. -/
def dirtyFlag (plan : FieldPlan) (index : Option String) : String :=
  match plan.flag, index with
  | first, none => s!"self.__dirty[{first}]"
  | 0, some index => s!"self.__dirty[{index}]"
  | first, some index => s!"self.__dirty[{first} + {index}]"

def valueType (plan : FieldPlan) : String := if plan.isBool then "bool" else plan.host.text

/-- The expression that reads a value from its place. -/
def reading (plan : FieldPlan) (place : String) : String :=
  if plan.isBool then s!"{place} != 0" else place

/-- The expression that is stored for the argument `value`. -/
def writing (plan : FieldPlan) : String := if plan.isBool then "u32::from(value)" else "value"

/-- The code that drops a write while the field has no location. -/
def gate (scope : WrapperScope) (plan : FieldPlan) (leave : String) : List Code :=
  if scope.isUniformSet then
    [Code.braced s!"if self.__locations[{plan.index}].is_none()" [.line leave]]
  else []

def outOfRange (plan : FieldPlan) : String :=
  s!"Self::out_of_range(\"{plan.field.name}\", index, {plan.field.length})"

/-- The code that refuses an index that is out of range. -/
def boundsCheck (plan : FieldPlan) : Code :=
  Code.braced s!"if index >= {plan.field.length}" [.line s!"return Err({plan.outOfRange});"]

def valueAccessors (scope : WrapperScope) (plan : FieldPlan) : List Code :=
  let place := plan.place "self.__data" ""
  [.line s!"/// `{plan.field.name}` at offset {plan.field.offset}.",
    Code.braced s!"pub fn {plan.identifier}(&self) -> {plan.valueType}"
      [.line (plan.reading place)],
    Code.blank,
    Code.braced s!"pub fn set_{plan.identifier}(&mut self, value: {plan.valueType})"
      (plan.gate scope "return;" ++ Code.lines
        [s!"{place} = {plan.writing};", s!"{plan.dirtyFlag none} = true;"])]

/-- The accessors of a field that holds an array of values. -/
def valueArrayAccessors (scope : WrapperScope) (plan : FieldPlan) : List Code :=
  let place := plan.place "self.__data" "index"
  let flag := plan.dirtyFlag (some "index")
  let field := plan.field
  let found := scope.result plan.valueType
  let stored := scope.result "()"
  [.line s!"/// `{field.name}` element at offset {field.offset} + index * {field.stride}.",
    Code.braced s!"pub fn {plan.identifier}(&self, index: usize) -> {found}"
      [plan.boundsCheck, .line s!"Ok({plan.reading place})"],
    Code.blank,
    Code.braced
      s!"pub fn set_{plan.identifier}(&mut self, index: usize, value: {plan.valueType}) -> {stored}"
      (plan.boundsCheck :: plan.gate scope "return Ok(());" ++ Code.lines
        [s!"{place} = {plan.writing};", s!"{flag} = true;", "Ok(())"])]

/-- The code that passes a stored handle on to the host, under the texture unit of its element. -/
def registerHandle (scope : WrapperScope) (plan : FieldPlan) (kind : HandleKind) : List Code :=
  let target := match kind.target? with
    | some target => s!"Some({scope.runtime}::TextureTarget::{target.display})"
    | none => "None"
  match plan.registeredUnit? scope.bindsUnits with
  | some unit =>
    let call : Code :=
      .line s!"registrar.register_handle(\"{plan.field.name}\", {target}, {unit.text}, handle);"
    if plan.field.unit.isSome then [call]
    else [Code.braced "if let Some(first) = self.__first_unit" [call]]
  | none => [.line "let _ = registrar;"]

/-- The accessors of a field that holds one handle. -/
def handleAccessors (scope : WrapperScope) (plan : FieldPlan) (kind : HandleKind) : List Code :=
  let handle := scope.path "TextureHandle"
  let registrar := scope.path "HandleRegistrar"
  let arguments := s!"&mut self, handle: {handle}, registrar: &mut dyn {registrar}"
  [Code.braced s!"pub fn {plan.identifier}(&self) -> Option<{handle}>"
      [.line s!"self.{plan.identifier}"],
    Code.blank,
    Code.braced s!"pub fn set_{plan.identifier}({arguments})"
      (plan.gate scope "return;" ++ .line s!"self.{plan.identifier} = Some(handle);" ::
        plan.registerHandle scope kind ++ [.line s!"{plan.dirtyFlag none} = true;"])]

/-- The accessors of a field that holds an array of handles. -/
def handleArrayAccessors (scope : WrapperScope) (plan : FieldPlan) (kind : HandleKind) :
    List Code :=
  let name := plan.identifier
  let handle := scope.path "TextureHandle"
  let registrar := scope.path "HandleRegistrar"
  let found := scope.result s!"Option<{handle}>"
  let stored := scope.result "()"
  let arguments := s!"&mut self, index: usize, handle: {handle}, registrar: &mut dyn {registrar}"
  let flag := plan.dirtyFlag (some "index")
  [Code.braced s!"pub fn {name}(&self, index: usize) -> {found}"
      [.line s!"self.{name}.get(index).copied().ok_or_else(|| {plan.outOfRange})"],
    Code.blank,
    Code.braced s!"pub fn set_{name}({arguments}) -> {stored}"
      (plan.boundsCheck :: plan.gate scope "return Ok(());" ++
        .line s!"self.{name}[index] = Some(handle);" ::
        plan.registerHandle scope kind ++ Code.lines [s!"{flag} = true;", "Ok(())"])]

/-- The accessors of a field that holds one instance. -/
def childAccessors (plan : FieldPlan) (child : String) : List Code :=
  let name := plan.identifier
  [Code.braced s!"pub fn {name}(&self) -> &{child}" [.line s!"&self.{name}"],
    Code.blank,
    Code.braced s!"pub fn {name}_mut(&mut self) -> &mut {child}" [.line s!"&mut self.{name}"]]

/-- The accessors of a field that holds an array of instances. -/
def childArrayAccessors (scope : WrapperScope) (plan : FieldPlan) (child : String) : List Code :=
  let name := plan.identifier
  let found := scope.result s!"&{child}"
  let changed := scope.result s!"&mut {child}"
  [Code.braced s!"pub fn {name}(&self, index: usize) -> {found}"
      [.line s!"self.{name}.get(index).ok_or_else(|| {plan.outOfRange})"],
    Code.blank,
    Code.braced s!"pub fn {name}_mut(&mut self, index: usize) -> {changed}"
      [.line s!"self.{name}.get_mut(index).ok_or_else(|| {plan.outOfRange})"]]

def accessors (scope : WrapperScope) (plan : FieldPlan) : List Code :=
  match plan.field.kind, plan.field.isArray with
  | .value _, false => plan.valueAccessors scope
  | .value _, true => plan.valueArrayAccessors scope
  | .handle kind, false => plan.handleAccessors scope kind
  | .handle kind, true => plan.handleArrayAccessors scope kind
  | .aggregate schema, false => plan.childAccessors schema.name
  | .aggregate schema, true => plan.childArrayAccessors scope schema.name

end FieldPlan

end UniformLayout
