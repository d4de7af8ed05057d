import UniformLayout.Notice
import UniformLayout.Registry.Basic

/-!
# Resolving dependencies

`resolve` orders the declarations of a unit so that every aggregate comes after the aggregates that
its fields use. It works in waves: a wave holds every pending declaration whose field types are all
resolved, in source order. Field types that the unit does not declare, and declarations whose
structure is known, are taken from the types that the registry has generated.

Main statements: `blocked_length_lt` and `resolveWaves_nil`.
-/

namespace UniformLayout

/-- A declaration that needs a layout. -/
structure ResolvedType where
  declaration : TypeDeclaration
  contentHash : String
  deriving DecidableEq, Repr

/-- A type that was generated before, under the name by which the unit refers to it. A type that the
unit only refers to has no declaration. -/
structure ReusedType where
  name : String
  descriptor : LayoutDescriptor
  declaration : Option TypeDeclaration

/-- What resolving a unit gives. -/
structure Resolution where
  /-- The declared names of each wave. -/
  waves : List (List String) := []
  /-- The declarations to lay out, each behind those that it depends on. -/
  order : List ResolvedType := []
  reused : List ReusedType := []
  /-- The content hash of every resolved name. -/
  hashes : Table String String := []

namespace Resolution

def knows (resolution : Resolution) (name : String) : Bool :=
  (resolution.hashes.lookup name).isSome

def size (resolution : Resolution) : Nat :=
  resolution.order.length + resolution.reused.countP (·.declaration.isSome)

end Resolution

/-- Adds a declaration to those before it. A copy of the same shape is dropped, which is reported; a
copy of another shape is refused. -/
def addDistinct (key : String) (distinct : List TypeDeclaration) (decl : TypeDeclaration) :
    Logged CompileError (List TypeDeclaration) := do
  match distinct.find? (·.name == decl.name) with
  | none => return distinct ++ [decl]
  | some first =>
    if first.sameShape decl then
      Logged.note (.identicalCopyIgnored key decl.name decl.source)
      return distinct
    else throw (.duplicateDeclaration key decl.name)

def deduplicate (key : String) (decls : List TypeDeclaration) :
    Logged CompileError (List TypeDeclaration) :=
  decls.foldlM (addDistinct key) []

/-- Resolves a field type of `owner` that the unit does not declare. -/
def resolveReference (registry : Registry) (key : String) (owner : TypeDeclaration)
    (resolution : Resolution) (name : String) : Except CompileError Resolution := do
  if resolution.knows name then return resolution
  let identity? := registry.resolveDeclaredIn? name key
  match identity?.bind fun identity => registry.descriptorOfHash? identity.contentHash with
  | none => throw (.unknownType key owner.name name)
  | some descriptor =>
    return { resolution with
      hashes := resolution.hashes.insert name descriptor.identity.contentHash
      reused := resolution.reused ++ [{ name, descriptor, declaration := none }] }

/-- Resolves every field type that the unit does not declare. -/
def resolveReferences (registry : Registry) (key : String) (decls : List TypeDeclaration) :
    Except CompileError Resolution :=
  let declared := decls.map TypeDeclaration.name
  let references := decls.flatMap fun decl =>
    (decl.dependencies.filter (!declared.contains ·)).map (decl, ·)
  references.foldlM (fun resolution (owner, name) =>
    resolveReference registry key owner resolution name) {}

/-- Resolves one declaration whose field types are resolved. -/
def Resolution.addDeclaration (registry : Registry) (resolution : Resolution)
    (decl : TypeDeclaration) : Resolution :=
  let contentHash := decl.contentHash resolution.hashes
  let resolution := { resolution with hashes := resolution.hashes.insert decl.name contentHash }
  match registry.descriptorOfHash? contentHash with
  | some descriptor =>
    let entry : ReusedType := { name := decl.name, descriptor, declaration := some decl }
    { resolution with reused := resolution.reused ++ [entry] }
  | none => { resolution with order := resolution.order ++ [⟨decl, contentHash⟩] }

def Resolution.addWave (registry : Registry) (resolution : Resolution)
    (ready : List TypeDeclaration) : Resolution :=
  let after := ready.foldl (Resolution.addDeclaration registry) resolution
  { after with waves := after.waves ++ [ready.map TypeDeclaration.name] }

/-- All field types of the declaration are resolved. -/
def Resolution.isReady (resolution : Resolution) (decl : TypeDeclaration) : Bool :=
  decl.dependencies.all resolution.knows

def Resolution.ready (resolution : Resolution) (pending : List TypeDeclaration) :
    List TypeDeclaration :=
  pending.filter resolution.isReady

/-- The declarations that stay behind the next wave. -/
def Resolution.blocked (resolution : Resolution) (pending : List TypeDeclaration) :
    List TypeDeclaration :=
  pending.filter (!resolution.isReady ·)

/-- A wave that is not empty leaves fewer declarations behind. -/
theorem blocked_length_lt {resolution : Resolution} {pending : List TypeDeclaration}
    (h : resolution.ready pending ≠ []) :
    (resolution.blocked pending).length < pending.length := by
  obtain ⟨decl, hm⟩ := List.exists_mem_of_ne_nil _ h
  simp only [Resolution.ready, List.mem_filter] at hm
  exact List.length_filter_lt_length_iff_exists.2 ⟨decl, hm.1, by simp [hm.2]⟩

/-- Resolves the pending declarations wave by wave. When none of them is ready, they depend on a
cycle. -/
def resolveWaves (registry : Registry) (key : String) (resolution : Resolution)
    (pending : List TypeDeclaration) : Except CompileError Resolution :=
  if pending.isEmpty then .ok resolution
  else if h : resolution.ready pending = [] then
    .error (.circularDependency key (pending.map TypeDeclaration.name))
  else
    have := blocked_length_lt h
    resolveWaves registry key (resolution.addWave registry (resolution.ready pending))
      (resolution.blocked pending)
  termination_by pending.length

@[simp] theorem resolveWaves_nil (registry : Registry) (key : String) (resolution : Resolution) :
    resolveWaves registry key resolution [] = .ok resolution := by
  simp [resolveWaves]

/-- Resolves the declarations of the unit `key` against each other and against the registry. -/
def resolve (registry : Registry) (key : String) (decls : List TypeDeclaration) :
    Logged CompileError Resolution := do
  let distinct ← deduplicate key decls
  let referenced ← resolveReferences registry key distinct
  resolveWaves registry key referenced distinct

end UniformLayout
