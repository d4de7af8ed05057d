import UniformLayout.Error
import UniformLayout.Files
import UniformLayout.Table

/-!
# Artifact sinks

A sink stores generated sources under the name of their type, in a state of its own choice; a write
may be refused. Sources are kept in memory (`memorySink`) or in a directory (`DirectorySink.sink`),
where a file that already holds the source is left alone.

Main statement: `memorySink_write`.
-/

namespace UniformLayout

/-- A way to store generated sources: `write` stores a text under a key. -/
structure ArtifactSink (τ : Type) where
  write : (key text : String) → τ → Except StorageError Unit × τ

/-- Generated sources by their key, in the order of the keys. -/
abbrev Artifacts := Table String String

/-- Keeps every source in memory; a later one of a key replaces the one before. -/
def memorySink : ArtifactSink Artifacts where
  write key text kept := (.ok (), kept.insert key text)

/-- A source that is written to memory is found under its key. -/
theorem memorySink_write (key text : String) (kept : Artifacts) :
    (memorySink.write key text kept).1 = .ok () ∧
      (memorySink.write key text kept).2.lookup key = some text :=
  ⟨rfl, Table.lookup_insert_self key text kept⟩

/-- Accepts as many writes as the state's number says, and then refuses every other. -/
def ArtifactSink.limited {τ : Type} (inner : ArtifactSink τ) : ArtifactSink (τ × Nat) where
  write key text state :=
    match state.2 with
    | 0 => (.error (.refused s!"disk full while writing {key}"), state)
    | left + 1 =>
      let (answer, after) := inner.write key text state.1
      (answer, after, left)

/-- A directory for generated sources, and the extension of their files. -/
structure DirectorySink where
  directory : String
  extension : String
  deriving DecidableEq, Repr, Inhabited

namespace DirectorySink

def pathFor (target : DirectorySink) (key : String) : String :=
  Path.join target.directory s!"{key}.{target.extension}"

/-- Writes the file of a key, unless it already holds the text. -/
def write (target : DirectorySink) (key text : String) (tree : FileTree) :
    Except StorageError Unit × FileTree :=
  let path := target.pathFor key
  if tree.read? path = some text then (.ok (), tree)
  else match tree.createDirectories target.directory with
    | (false, changed) => (.error (.createOutput target.directory), changed)
    | (true, created) =>
      match created.write? path text with
      | none => (.error (.writeArtifact path), created)
      | some written => (.ok (), written)

def sink (target : DirectorySink) : ArtifactSink FileTree := ⟨target.write⟩

end DirectorySink

end UniformLayout
