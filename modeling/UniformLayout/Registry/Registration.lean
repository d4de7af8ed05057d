import UniformLayout.Registry.Mint

/-!
# Registering declarations

`register` answers with the identity of a content hash, which it mints on first sight, and records
the declaration's name and source as an alias. A `Registration` says what that changed, so that
`rollBack` can undo it: the aliases go first, then the records that were minted, unless another
source declared them since or their host type has been begun.

Main statement: `Registry.register_of_known`.
-/

namespace UniformLayout

/-- What one registration answered and changed. -/
structure Registration where
  identity : TypeIdentity
  /-- The registration created the record. -/
  minted : Bool
  /-- The alias that the registration added. -/
  added : Option Alias
  deriving DecidableEq, Repr

namespace Registry

/-- The alias under which a declaration is registered. -/
def aliasOf (decl : TypeDeclaration) : Alias := ⟨decl.name, decl.source.file⟩

/-- The identity of a content hash, minted on first sight. The declaration becomes an alias of it
either way. -/
def register (registry : Registry) (decl : TypeDeclaration) (hash : String) :
    Registration × Registry :=
  let alias_ := aliasOf decl
  let index? := registry.byHash.lookup hash
  match index?, registry.recordAt? index? with
  | some index, some record =>
    let added := if registry.hasAlias index alias_ then none else some alias_
    (⟨record.identity, false, added⟩, registry.addAlias index alias_)
  | _, _ =>
    let persistentId := registry.mintId hash
    let generatedName := registry.mintName decl.name persistentId
    let identity : TypeIdentity := { contentHash := hash, persistentId, generatedName }
    (⟨identity, true, some alias_⟩,
      (registry.addRecord identity).addAlias registry.records.length alias_)

/-- Registers a declaration under the hash that it has on its own. -/
def registerOrReuse (registry : Registry) (decl : TypeDeclaration) : TypeIdentity × Registry :=
  let (registration, after) := registry.register decl (decl.contentHash [])
  (registration.identity, after)

def registerAll (registry : Registry) (decls : List (TypeDeclaration × String)) :
    List Registration × Registry :=
  decls.foldl
    (fun (done, registry) (decl, hash) =>
      let (registration, after) := registry.register decl hash
      (done ++ [registration], after))
    ([], registry)

/-- Takes back the alias that a registration added. -/
def undoAlias (registry : Registry) (registration : Registration) : Registry :=
  match registration.added, registry.byId.lookup registration.identity.persistentId with
  | some alias_, some index => registry.removeAlias index alias_
  | _, _ => registry

/-- The index of the record that a registration minted, if nothing declares it any more and its
host type was never begun. -/
def doomedBy? (registry : Registry) (registration : Registration) : Option Nat := do
  let index ← registry.byId.lookup registration.identity.persistentId
  let record ← registry.records[index]?
  if registration.minted && record.state == .pending && record.declared.isEmpty then some index
  else none

/-- Undoes the registrations of a unit that failed: their aliases, the last one first, and then the
records that they minted and nobody else needs. -/
def rollBack (registry : Registry) (registrations : List Registration) : Registry :=
  let unaliased := registrations.reverse.foldl undoAlias registry
  let doomed := registrations.filterMap unaliased.doomedBy?
  if doomed.isEmpty then unaliased else unaliased.removeRecords doomed

/-- A known hash keeps its identity, and no record is added. -/
theorem register_of_known {registry : Registry} {decl : TypeDeclaration} {hash : String}
    {index : Nat} {record : Record} (hi : registry.byHash.lookup hash = some index)
    (hr : registry.records[index]? = some record) :
    (registry.register decl hash).1.identity = record.identity ∧
      (registry.register decl hash).2.records.length = registry.records.length := by
  have : registry.register decl hash =
      (⟨record.identity, false,
          if registry.hasAlias index (aliasOf decl) then none else some (aliasOf decl)⟩,
        registry.addAlias index (aliasOf decl)) := by
    simp [register, hi, recordAt?, hr]
  rw [this]
  refine ⟨rfl, ?_⟩
  simp only [addAlias]
  split <;> simp

end Registry

end UniformLayout
