import UniformLayout.Files
import UniformLayout.Registry.Snapshot
import UniformLayout.Settings
import UniformLayout.Toml.Document

/-!
# The registry's cache file

A registry is kept between sessions as a TOML document that lists the types with their aliases.
Reading one ignores keys that it does not know; the lists may be missing, everything else is
required.

Main statement: `Snapshot.ofDocument?_document_nil`.
-/

namespace UniformLayout

/-! ## Writing -/

def cacheLine (key value : String) : String := s!"{key} = {value}\n"

def Alias.block (alias_ : Alias) : String :=
  "\n[[types.declared]]\n" ++ cacheLine "name" (Toml.quote alias_.name) ++
    cacheLine "source" (Toml.quote alias_.source)

/-- The block of one type, with the blocks of its aliases. -/
def SnapshotEntry.block (entry : SnapshotEntry) : String :=
  "[[types]]\n" ++ cacheLine "content_hash" (Toml.quote entry.identity.contentHash) ++
    cacheLine "persistent_id" (Toml.quote entry.identity.persistentId) ++
    cacheLine "generated_name" (Toml.quote entry.identity.generatedName) ++
    (if entry.declared.isEmpty then cacheLine "declared" "[]"
      else String.join (entry.declared.map Alias.block))

def Snapshot.document (kept : Snapshot) : String :=
  if kept.isEmpty then cacheLine "types" "[]"
  else String.intercalate "\n" (kept.map SnapshotEntry.block)

/-! ## Reading -/

def Alias.ofToml? (value : Toml) : Option Alias := do
  match ← value.fields? ["name", "source"] with
  | [name, source] => return ⟨← (← name).string?, ← (← source).string?⟩
  | _ => none

def SnapshotEntry.ofToml? (value : Toml) : Option SnapshotEntry := do
  match ← value.fields? ["content_hash", "persistent_id", "generated_name", "declared"] with
  | [contentHash, persistentId, generatedName, declared] =>
    let identity : TypeIdentity :=
      { contentHash := ← (← contentHash).string?
        persistentId := ← (← persistentId).string?
        generatedName := ← (← generatedName).string? }
    let aliases ← Toml.optional? [] (fun list => do (← list.array?).mapM Alias.ofToml?) declared
    return ⟨identity, aliases⟩
  | _ => none

def Snapshot.ofToml? (value : Toml) : Option Snapshot := do
  match ← value.fields? ["types"] with
  | [types] =>
    Toml.optional? [] (fun list => do (← list.array?).mapM SnapshotEntry.ofToml?) types
  | _ => none

def Snapshot.ofDocument? (text : String) : Option Snapshot :=
  (Toml.ofText? text).bind Snapshot.ofToml?

/-- The document without types is read back as such. -/
theorem Snapshot.ofDocument?_document_nil :
    Snapshot.ofDocument? (Snapshot.document []) = some [] := by
  decide +kernel

/-! ## Files -/

namespace Registry

/-- Writes the registry's document to a file, and creates the directory of the file. -/
def save (registry : Registry) (path : String) (tree : FileTree) :
    Except StorageError Unit × FileTree :=
  let directory := (Path.parent? path).getD ""
  match tree.createDirectories directory with
  | (false, changed) => (.error (.createDirectory directory), changed)
  | (true, created) =>
    match created.write? path registry.snapshot.document with
    | none => (.error (.writeCache path), created)
    | some written => (.ok (), written)

def load (registry : Registry) (path : String) (tree : FileTree) : Except StorageError Registry :=
  match tree.read? path with
  | none => .error (.readCache path)
  | some text =>
    match Snapshot.ofDocument? text with
    | none => .error (.parseCache path)
    | some kept => .ok (registry.restore kept)

/-! ## Sessions -/

/-- The registry at the start of a session: with the types of the cache file, if there is one. A
cache file that cannot be used is reported. -/
def ofSettings {ε : Type} (settings : RegistrySettings) (tree : FileTree) : Logged ε Registry := do
  let fresh : Registry := { suffixLength := settings.suffixLength }
  match settings.cacheFile.filter tree.pathExists with
  | none => return fresh
  | some path =>
    match fresh.load path tree with
    | .ok registry => return registry
    | .error error =>
      Logged.note (.cacheIgnored error)
      return fresh

/-- Writes the registry to the cache file, if the settings name one. -/
def saveCache (registry : Registry) (settings : RegistrySettings) (tree : FileTree) :
    Except StorageError Unit × FileTree :=
  match settings.cacheFile with
  | none => (.ok (), tree)
  | some path => registry.save path tree

end Registry

end UniformLayout
