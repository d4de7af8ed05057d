import UniformLayout.Instance

/-!
# Changes of an instance

`StructInstance.dirtyFields` lists the elements that were written since the instance was last clean,
in declaration order, each with its path from the root, its absolute offset, its size and its
location. `DirtySet.ranges` gives the byte ranges that they cover, in ascending order, with ranges
that touch or overlap merged.

Main statement: `StructInstance.isDirty_setClean`.
-/

namespace UniformLayout

/-- One changed element. -/
structure DirtyField where
  path : String
  offset : Nat
  size : Nat
  location : Option Nat
  deriving DecidableEq, Repr, Inhabited

abbrev DirtySet := List DirtyField

/-- The bytes from `start` up to, but not including, `stop`. -/
structure ByteRange where
  start : Nat
  stop : Nat
  deriving DecidableEq, Repr, Inhabited

namespace ByteRange

/-- Merges ranges in ascending order of their starts behind the range `last`. -/
def mergeBehind (last : ByteRange) : List ByteRange → List ByteRange
  | [] => [last]
  | next :: rest =>
    if next.start ≤ last.stop then mergeBehind ⟨last.start, max last.stop next.stop⟩ rest
    else last :: mergeBehind next rest

/-- Merges ranges that touch or overlap, given in ascending order of their starts. -/
def merge : List ByteRange → List ByteRange
  | [] => []
  | first :: rest => mergeBehind first rest

@[simp] theorem merge_nil : merge [] = [] := rfl

end ByteRange

def DirtyField.range (field : DirtyField) : ByteRange := ⟨field.offset, field.offset + field.size⟩

namespace DirtySet

def ranges (changes : DirtySet) : List ByteRange :=
  ByteRange.merge ((changes.map DirtyField.range).mergeSort fun a b => a.start ≤ b.start)

def containsPath (changes : DirtySet) (path : String) : Bool :=
  changes.any (·.path == path)

end DirtySet

/-- The path of an element of a field, behind the path of the instance that holds it. -/
def elementPath (above : String) (field : FieldSchema) (element : Nat) : String :=
  if field.isArray then s!"{above}{field.name}[{element}]" else above ++ field.name

/-- The changed elements of a field that holds no instances, from element `element` on. -/
def dirtyElements (above : String) (base : Nat) (field : FieldSchema) (location : Option Nat) :
    (element : Nat) → List Bool → DirtySet
  | _, [] => []
  | element, flag :: rest =>
    let others := dirtyElements above base field location (element + 1) rest
    if flag then
      { path := elementPath above field element
        offset := base + field.elementOffset element
        size := field.elementSize
        location := location.map (· + element) } :: others
    else others

mutual

/-- The changed elements of an instance that starts at `base`, with paths behind `above`. -/
def StructInstance.dirtyFrom (above : String) (base : Nat) : StructInstance → DirtySet
  | ⟨schema, fields, _⟩ => dirtyFieldsFrom above base schema.fields fields

def dirtyFieldsFrom (above : String) (base : Nat) : List FieldSchema → List FieldState → DirtySet
  | schema :: schemas, state :: states =>
    state.dirtyFrom above base schema ++ dirtyFieldsFrom above base schemas states
  | _, _ => []

def FieldState.dirtyFrom (above : String) (base : Nat) (schema : FieldSchema) :
    FieldState → DirtySet
  | ⟨.children list, _, _, _⟩ => dirtyChildrenFrom above base schema 0 list
  | ⟨.values _, dirty, location, _⟩ => dirtyElements above base schema location 0 dirty
  | ⟨.handles _, dirty, location, _⟩ => dirtyElements above base schema location 0 dirty

/-- The changed elements of the instances in a field, from element `element` on. -/
def dirtyChildrenFrom (above : String) (base : Nat) (schema : FieldSchema) (element : Nat) :
    List StructInstance → DirtySet
  | [] => []
  | child :: rest =>
    child.dirtyFrom (elementPath above schema element ++ ".") (base + schema.elementOffset element) ++
      dirtyChildrenFrom above base schema (element + 1) rest

end

mutual

/-- Some element of the instance was written since it was last clean. -/
def StructInstance.isDirty : StructInstance → Bool
  | ⟨_, fields, _⟩ => anyFieldDirty fields

def anyFieldDirty : List FieldState → Bool
  | [] => false
  | state :: rest => state.isDirty || anyFieldDirty rest

def FieldState.isDirty : FieldState → Bool
  | ⟨.children list, _, _, _⟩ => anyChildDirty list
  | ⟨.values _, dirty, _, _⟩ => dirty.any id
  | ⟨.handles _, dirty, _, _⟩ => dirty.any id

def anyChildDirty : List StructInstance → Bool
  | [] => false
  | child :: rest => child.isDirty || anyChildDirty rest

end

mutual

def StructInstance.setClean : StructInstance → StructInstance
  | ⟨schema, fields, attached⟩ => ⟨schema, cleanFields fields, attached⟩

def cleanFields : List FieldState → List FieldState
  | [] => []
  | state :: rest => state.setClean :: cleanFields rest

def FieldState.setClean : FieldState → FieldState
  | ⟨.children list, dirty, location, unit⟩ =>
    ⟨.children (cleanChildren list), dirty, location, unit⟩
  | ⟨.values list, dirty, location, unit⟩ =>
    ⟨.values list, dirty.map fun _ => false, location, unit⟩
  | ⟨.handles list, dirty, location, unit⟩ =>
    ⟨.handles list, dirty.map fun _ => false, location, unit⟩

def cleanChildren : List StructInstance → List StructInstance
  | [] => []
  | child :: rest => child.setClean :: cleanChildren rest

end

/-- The changed elements of the instance, with offsets from its start. -/
def StructInstance.dirtyFields (inst : StructInstance) : DirtySet := inst.dirtyFrom "" 0

mutual

theorem StructInstance.isDirty_setClean : ∀ inst : StructInstance, inst.setClean.isDirty = false
  | ⟨_, fields, _⟩ => by
    simp [StructInstance.setClean, StructInstance.isDirty, anyFieldDirty_cleanFields fields]

theorem anyFieldDirty_cleanFields :
    ∀ fields : List FieldState, anyFieldDirty (cleanFields fields) = false
  | [] => by simp [cleanFields, anyFieldDirty]
  | state :: rest => by
    simp [cleanFields, anyFieldDirty, state.isDirty_setClean, anyFieldDirty_cleanFields rest]

theorem FieldState.isDirty_setClean : ∀ state : FieldState, state.setClean.isDirty = false
  | ⟨.children list, _, _, _⟩ => by
    simp [FieldState.setClean, FieldState.isDirty, anyChildDirty_cleanChildren list]
  | ⟨.values _, _, _, _⟩ => by simp [FieldState.setClean, FieldState.isDirty]
  | ⟨.handles _, _, _, _⟩ => by simp [FieldState.setClean, FieldState.isDirty]

theorem anyChildDirty_cleanChildren :
    ∀ list : List StructInstance, anyChildDirty (cleanChildren list) = false
  | [] => by simp [cleanChildren, anyChildDirty]
  | child :: rest => by
    simp [cleanChildren, anyChildDirty, child.isDirty_setClean, anyChildDirty_cleanChildren rest]

end

end UniformLayout
