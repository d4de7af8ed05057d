import UniformLayout.Layout
import UniformLayout.Table

/-!
# The type registry

A `Registry` gives every content hash one identity. It holds a list of records and four indices into
it: by content hash, by persistent id, by generated name, and by declared name, where each name
lists the sources that declared it in the order in which they did.

Main statements: `Registry.setRecord_length` and `Registry.keepIndex?_lt`.
-/

namespace UniformLayout

/-- Whether the host type of a record has been written. -/
inductive GenerationState where
  | pending
  | inProgress
  | generated
  deriving DecidableEq, Repr, Inhabited

/-- A declared name and the key of the source that declares it. -/
structure Alias where
  name : String
  source : String
  deriving DecidableEq, Repr, Inhabited

/-- One registered type. -/
structure Record where
  identity : TypeIdentity
  /-- The declarations that resolved to this record, in the order in which they did. -/
  declared : List Alias := []
  state : GenerationState := .pending
  descriptor : Option LayoutDescriptor := none

/-- The registered types and the indices into them. -/
structure Registry where
  /-- Characters of the persistent id that first follow a name that is taken. -/
  suffixLength : Nat := 4
  records : List Record := []
  byHash : Table String Nat := []
  byId : Table String Nat := []
  byGeneratedName : Table String Nat := []
  byDeclaredName : Table String (List (String × Nat)) := []

namespace Registry

def recordAt? (registry : Registry) (index : Option Nat) : Option Record :=
  index.bind (registry.records[·]?)

def ofHash? (registry : Registry) (hash : String) : Option Record :=
  registry.recordAt? (registry.byHash.lookup hash)

def ofId? (registry : Registry) (id : String) : Option Record :=
  registry.recordAt? (registry.byId.lookup id)

def ofGeneratedName? (registry : Registry) (name : String) : Option Record :=
  registry.recordAt? (registry.byGeneratedName.lookup name)

/-- The sources that declared a name, each with the index of the record that it resolved to. -/
def declarationsOf (registry : Registry) (name : String) : List (String × Nat) :=
  (registry.byDeclaredName.lookup name).getD []

/-- The identity first registered under a declared name, in any source. -/
def resolveDeclared? (registry : Registry) (name : String) : Option TypeIdentity :=
  (registry.recordAt? ((registry.declarationsOf name).head?.map Prod.snd)).map Record.identity

/-- The identity that a name has in a source; where the source does not declare the name, the one
first registered in any source. -/
def resolveDeclaredIn? (registry : Registry) (name source : String) : Option TypeIdentity :=
  let entries := registry.declarationsOf name
  let entry := (entries.find? (·.1 == source)).or entries.head?
  (registry.recordAt? (entry.map Prod.snd)).map Record.identity

def identityOfHash? (registry : Registry) (hash : String) : Option TypeIdentity :=
  (registry.ofHash? hash).map Record.identity

/-- The layout of a content hash whose host type has been written. -/
def descriptorOfHash? (registry : Registry) (hash : String) : Option LayoutDescriptor :=
  (registry.ofHash? hash).bind Record.descriptor

/-- The host type of a content hash has been written. -/
def isGenerated (registry : Registry) (hash : String) : Bool :=
  (registry.ofHash? hash).any (·.state == .generated)

def identities (registry : Registry) : List TypeIdentity :=
  registry.records.map Record.identity

def setRecord (registry : Registry) (index : Nat) (change : Record → Record) : Registry :=
  { registry with records := registry.records.modify index change }

@[simp] theorem setRecord_length (registry : Registry) (index : Nat) (change : Record → Record) :
    (registry.setRecord index change).records.length = registry.records.length := by
  simp [setRecord]

/-! ## Aliases -/

/-- The record at `index` is known under the alias. -/
def hasAlias (registry : Registry) (index : Nat) (alias_ : Alias) : Bool :=
  (registry.declarationsOf alias_.name).contains (alias_.source, index)

/-- Adds an alias to the record at `index`, behind those it has, unless it has this one. -/
def addAlias (registry : Registry) (index : Nat) (alias_ : Alias) : Registry :=
  if registry.hasAlias index alias_ then registry
  else
    let entries := registry.declarationsOf alias_.name ++ [(alias_.source, index)]
    { registry.setRecord index fun record =>
        { record with declared := record.declared ++ [alias_] } with
      byDeclaredName := registry.byDeclaredName.insert alias_.name entries }

/-- Takes an alias from the record at `index`. A name that nothing declares is forgotten. -/
def removeAlias (registry : Registry) (index : Nat) (alias_ : Alias) : Registry :=
  let entries := (registry.declarationsOf alias_.name).filter (· != (alias_.source, index))
  { registry.setRecord index fun record =>
      { record with declared := record.declared.filter (· != alias_) } with
    byDeclaredName :=
      if entries.isEmpty then registry.byDeclaredName.filter (·.1 != alias_.name)
      else registry.byDeclaredName.insert alias_.name entries }

/-! ## Adding and removing records -/

def addRecord (registry : Registry) (identity : TypeIdentity) : Registry :=
  let index := registry.records.length
  { registry with
    records := registry.records ++ [{ identity }]
    byHash := registry.byHash.insert identity.contentHash index
    byId := registry.byId.insert identity.persistentId index
    byGeneratedName := registry.byGeneratedName.insert identity.generatedName index }

/-- Where the record at `index` stands once the doomed records are gone. -/
def keepIndex? (doomed : List Nat) (index : Nat) : Option Nat :=
  if doomed.contains index then none
  else some ((List.range index).countP fun i => !doomed.contains i)

theorem keepIndex?_lt {doomed : List Nat} {index kept : Nat}
    (h : keepIndex? doomed index = some kept) : kept ≤ index := by
  simp only [keepIndex?] at h
  split at h
  · simp at h
  · simp only [Option.some.injEq] at h
    have := List.countP_le_length (p := fun i => !doomed.contains i) (l := List.range index)
    simp only [List.length_range] at this
    omega

/-- Removes the doomed records. Every index entry follows its record to its new place, so that
look-ups by declared name keep their order. -/
def removeRecords (registry : Registry) (doomed : List Nat) : Registry :=
  let follow {α : Type} (entry : α × Nat) : Option (α × Nat) :=
    (keepIndex? doomed entry.2).map fun index => (entry.1, index)
  { registry with
    records := (registry.records.zipIdx.filter fun entry => !doomed.contains entry.2).map Prod.fst
    byHash := registry.byHash.filterMap follow
    byId := registry.byId.filterMap follow
    byGeneratedName := registry.byGeneratedName.filterMap follow
    byDeclaredName :=
      (registry.byDeclaredName.map fun (name, entries) => (name, entries.filterMap follow)).filter
        (!·.2.isEmpty) }

end Registry

end UniformLayout
