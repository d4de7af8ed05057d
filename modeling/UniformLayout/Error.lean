import UniformLayout.Declaration

/-!
# Errors

Each kind of failure is a type of causes with one function that words it. A `CompileError` ends the
compilation of a whole unit; an `AccessError` belongs to one access of an instance; a
`StorageError` comes from files and artifact sinks.
-/

namespace UniformLayout

/-- Why a declaration cannot be read. -/
inductive Malformation where
  | unterminatedLength (field : String)
  | missingLength (field : String)
  | unknownLength (length field : String)
  | symbolicLength (field : String)
  | compoundLength (field : String)
  | zeroLength (field : String)
  | nestedLength (field : String)
  | layoutWithoutList
  | unterminatedLayout
  | layoutWithoutValue (qualifier : String)
  | strayLayoutToken
  | missingClosingBrace
  | nestedStruct
  | missingFieldType (found : String)
  | missingFieldName (type : String)
  | missingFieldEnd (field : String)
  | missingUniform
  | missingBlockEnd
  | missingUniformName (type : String)
  | missingUniformEnd (name : String)
  deriving DecidableEq, Repr

def Malformation.message : Malformation → String
  | .unterminatedLength field => s!"unterminated array length on `{field}`"
  | .missingLength field =>
    s!"`{field}` has no array length, runtime-sized arrays are not supported"
  | .unknownLength length field => s!"array length `{length}` of `{field}` is not numeric"
  | .symbolicLength field => s!"array length of `{field}` must be a literal"
  | .compoundLength field => s!"array length of `{field}` must be a single literal"
  | .zeroLength field => s!"`{field}` has zero array length"
  | .nestedLength field => s!"`{field}` is a multi-dimensional array"
  | .layoutWithoutList => "expected `(` after `layout`"
  | .unterminatedLayout => "unterminated layout qualifier"
  | .layoutWithoutValue qualifier => s!"layout `{qualifier}` needs a numeric value"
  | .strayLayoutToken => "unexpected token in layout qualifier"
  | .missingClosingBrace => "missing closing `\x7d`"
  | .nestedStruct => "nested struct definitions are not supported"
  | .missingFieldType found => s!"field type name is empty (found `{found}`)"
  | .missingFieldName type => s!"field of type `{type}` has no name"
  | .missingFieldEnd field => s!"expected `;` after field `{field}`"
  | .missingUniform => "expected a block or a typed uniform"
  | .missingBlockEnd => "expected `;` after uniform block"
  | .missingUniformName type => s!"uniform of type `{type}` has no name"
  | .missingUniformEnd name => s!"expected `;` after uniform `{name}`"

/-- A binding slot or texture unit could not be given out. -/
inductive BindingError where
  | slotConflict (slot : Nat)
  | slotOutOfRange (slot max : Nat)
  | exhausted
  deriving DecidableEq, Repr

def BindingError.message : BindingError → String
  | .slotConflict slot => s!"binding slot {slot} is already taken"
  | .slotOutOfRange slot max => s!"binding slot {slot} is outside the pool (0..{max})"
  | .exhausted => "no free binding slots left"

/-- A file could not be read, written or understood, or a sink refused an artifact. -/
inductive StorageError where
  | createDirectory (path : String)
  | writeCache (path : String)
  | readCache (path : String)
  | parseCache (path : String)
  | createOutput (path : String)
  | writeArtifact (path : String)
  | readSource (path : String)
  | readConfig (path : String)
  | parseConfig (path : String)
  | refused (reason : String)
  deriving DecidableEq, Repr

def StorageError.message : StorageError → String
  | .createDirectory path => s!"Failed to create directory: {path}"
  | .writeCache path => s!"Failed to write registry cache: {path}"
  | .readCache path => s!"Failed to read registry cache: {path}"
  | .parseCache path => s!"Failed to parse registry cache: {path}"
  | .createOutput path => s!"Failed to create output directory: {path}"
  | .writeArtifact path => s!"Failed to write artifact: {path}"
  | .readSource path => s!"Failed to read shader source: {path}"
  | .readConfig path => s!"Failed to read config file: \"{path}\""
  | .parseConfig path => s!"Failed to parse config file: \"{path}\""
  | .refused reason => reason

/-- A unit could not be compiled. -/
inductive CompileError where
  | malformedDeclaration (file : String) (line : Nat) (declaration : String) (reason : Malformation)
  | circularDependency (file : String) (names : List String)
  | unresolvedType (typeName dependency : String)
  | unknownType (file declaration typeName : String)
  | duplicateDeclaration (file name : String)
  | layoutOverflow (typeName field : String)
  | binding (error : BindingError)
  | sink (error : StorageError)
  deriving DecidableEq, Repr

namespace CompileError

def message : CompileError → String
  | malformedDeclaration file line declaration reason =>
    s!"{file}:{line}: malformed declaration in `{declaration}`: {reason.message}"
  | circularDependency file names =>
    s!"{file}: circular dependency between " ++ String.intercalate ", " names
  | unresolvedType typeName dependency =>
    s!"layout of `{typeName}` requested before `{dependency}` was laid out"
  | unknownType file declaration typeName =>
    s!"{file}: `{declaration}` uses unknown type `{typeName}`"
  | duplicateDeclaration file name => s!"{file}: `{name}` is declared twice with different fields"
  | layoutOverflow typeName field =>
    s!"layout of `{typeName}` overflows 32-bit offsets at field `{field}`"
  | binding error => error.message
  | sink error => error.message

/-- The names of the types that the error is about. -/
def typeNames : CompileError → List String
  | malformedDeclaration _ _ declaration _ => [declaration]
  | circularDependency _ names => names
  | unresolvedType typeName dependency => [typeName, dependency]
  | unknownType _ declaration _ => [declaration]
  | duplicateDeclaration _ name => [name]
  | layoutOverflow typeName _ => [typeName]
  | binding _ => []
  | sink _ => []

end CompileError

/-- An instance was accessed in a way that its schema does not allow. -/
inductive AccessError where
  | indexOutOfRange (field : String) (index length : Nat)
  | unlocatedField (field : String)
  | noSuchField (typeName field : String)
  | typeMismatch (field expected found : String)
  | notAnAggregate (field : String)
  | notAnArray (field : String)
  deriving DecidableEq, Repr

def AccessError.message : AccessError → String
  | .indexOutOfRange field index length =>
    s!"index {index} is out of range for `{field}` of length {length}"
  | .unlocatedField field => s!"`{field}` has no assigned location"
  | .noSuchField typeName field => s!"`{typeName}` has no field `{field}`"
  | .typeMismatch field expected found => s!"`{field}` expects `{expected}`, got `{found}`"
  | .notAnAggregate field => s!"`{field}` is not an aggregate"
  | .notAnArray field => s!"`{field}` is not an array"

theorem ok_bind {ε α β : Type} (a : α) (f : α → Except ε β) : (Except.ok a >>= f) = f a := rfl

/-- Two steps succeed when the first one does, and the second one on its value. -/
theorem bind_eq_ok_iff {ε α β : Type} {x : Except ε α} {f : α → Except ε β} {b : β} :
    x >>= f = .ok b ↔ ∃ a, x = .ok a ∧ f a = .ok b := by
  cases x with
  | error e =>
    constructor
    · intro h
      cases h
    · rintro ⟨a, ha, -⟩
      cases ha
  | ok a =>
    constructor
    · intro h
      exact ⟨a, rfl, h⟩
    · rintro ⟨other, ha, hb⟩
      obtain rfl := Except.ok.inj ha
      exact hb

/-- Two steps fail when the first one does, or the second one on its value. -/
theorem bind_eq_error_iff {ε α β : Type} {x : Except ε α} {f : α → Except ε β} {e : ε} :
    x >>= f = .error e ↔ x = .error e ∨ ∃ a, x = .ok a ∧ f a = .error e := by
  cases x with
  | error other =>
    change Except.error other = Except.error e ↔ _
    simp
  | ok a =>
    change f a = .error e ↔ _
    simp

/-- A result that passes a test is a success. -/
theorem exists_ok_of_any {ε α : Type} {x : Except ε α} {test : α → Bool}
    (h : x.toOption.any test = true) : ∃ a, x = .ok a ∧ test a = true := by
  cases x with
  | error e => cases h
  | ok a => exact ⟨a, rfl, h⟩

end UniformLayout
