import UniformLayout.Source.Contents
import UniformLayout.Text.Case
import UniformLayout.Text.Path

/-!
# Source units

A unit is what is compiled at once: the text of one shader under its key, and shared sources whose
structs the shader may use. The free uniforms of the shader are gathered in one more aggregate,
named after the key.

Main statements: `uniformSet?_eq_none_iff` and `uniformSet?_fields`.
-/

namespace UniformLayout

/-- A source that offers its structs to a unit. -/
structure SharedSource where
  key : String
  text : String
  deriving DecidableEq, Repr, Inhabited

/-- One shader and the shared sources that it uses. -/
structure SourceUnit where
  key : String
  text : String
  shared : List SharedSource := []
  deriving DecidableEq, Repr, Inhabited

/-- The name of the aggregate of free uniforms: the file name of the key without its extension, in
the case of type names. A name cannot start with a digit. -/
def uniformSetName (key : String) : String :=
  let stem := Text.pascalCase ((Path.stem? key).getD key)
  if stem.toList.head?.any Char.isDigit then s!"U{stem}Uniforms" else s!"{stem}Uniforms"

/-- The aggregate of the free uniforms, if there are any. It stands where the first one does. -/
def uniformSet? (key : String) : List UniformDeclaration → Option TypeDeclaration
  | [] => none
  | first :: rest =>
    some {
      name := uniformSetName key
      kind := .uniformSet
      fields := (first :: rest).map UniformDeclaration.toField
      source := first.source }

theorem uniformSet?_eq_none_iff {key : String} {uniforms : List UniformDeclaration} :
    uniformSet? key uniforms = none ↔ uniforms = [] := by
  cases uniforms <;> simp [uniformSet?]

/-- Every free uniform is a field of the aggregate. -/
theorem uniformSet?_fields {key : String} {uniforms : List UniformDeclaration}
    {decl : TypeDeclaration} (h : uniformSet? key uniforms = some decl) :
    decl.fields = uniforms.map UniformDeclaration.toField := by
  cases uniforms with
  | nil => simp [uniformSet?] at h
  | cons first rest =>
    simp only [uniformSet?, Option.some.injEq] at h
    rw [← h]

namespace SourceUnit

/-- The shader's contents, and the structs of the shared sources. -/
def read (unit : SourceUnit) : Logged CompileError (SourceContents × List TypeDeclaration) := do
  let contents ← SourceContents.read unit.key unit.text
  let shared ← unit.shared.mapM fun source => SourceContents.readStructs source.key source.text
  return (contents, shared.flatten)

/-- All declarations of a unit: the shared structs, those of the shader, and its free uniforms. -/
def declarations (contents : SourceContents) (shared : List TypeDeclaration) :
    List TypeDeclaration :=
  shared ++ contents.declarations ++ (uniformSet? contents.key contents.uniforms).toList

end SourceUnit

end UniformLayout
