import UniformLayout.Registry.Basic

/-!
# Snapshots

A snapshot holds the identities of a registry with their aliases, and nothing about generation.
Restoring one adds the entries that share no hash, id or name with a known type; their host types
are pending and will be written again.

Main statement: `Registry.restore_nil`.
-/

namespace UniformLayout

/-- One registered type as it is kept between sessions. -/
structure SnapshotEntry where
  identity : TypeIdentity
  declared : List Alias
  deriving DecidableEq, Repr

/-- The registered types as they are kept between sessions. -/
abbrev Snapshot := List SnapshotEntry

namespace Registry

def snapshot (registry : Registry) : Snapshot :=
  registry.records.map fun record => ⟨record.identity, record.declared⟩

/-- Some record shares the hash, the id or the generated name. -/
def knows (registry : Registry) (identity : TypeIdentity) : Bool :=
  (registry.byHash.lookup identity.contentHash).isSome ||
    (registry.byId.lookup identity.persistentId).isSome ||
    (registry.byGeneratedName.lookup identity.generatedName).isSome

/-- Adds one kept type with its aliases, unless a known type collides with it. -/
def restoreEntry (registry : Registry) (entry : SnapshotEntry) : Registry :=
  if registry.knows entry.identity then registry
  else
    let index := registry.records.length
    entry.declared.foldl (·.addAlias index ·) (registry.addRecord entry.identity)

def restore (registry : Registry) (kept : Snapshot) : Registry :=
  kept.foldl restoreEntry registry

@[simp] theorem restore_nil (registry : Registry) : registry.restore [] = registry := rfl

end Registry

end UniformLayout
