import UniformLayout.Error
import UniformLayout.Layout

/-!
# The std140 layout of a declaration

`TypeDeclaration.layOut` places the fields of a declaration one behind the other. Arrays have the
stride `arrayStride` and are aligned to at least `minAlignment`; an aggregate is aligned to the
greatest alignment of its fields and at least to `minAlignment`, and its size is rounded up to its
alignment. Aggregate fields take the layouts that the caller gives for their types. Every number has
to fit in 32 bits.
-/

namespace UniformLayout

/-- Layouts by the name of their type; the first entry of a name counts. -/
abbrev LayoutTable := List (String × StructLayout)

namespace FieldDeclaration

/-- What one element of the field is: a base type, or an aggregate with a known layout. -/
def shape (field : FieldDeclaration) (owner : String) (nested : LayoutTable) :
    Except CompileError FieldShape :=
  match field.baseType? with
  | some type => .ok (.base type)
  | none =>
    match nested.lookup field.typeName with
    | some layout => .ok (.aggregate layout)
    | none => .error (.unresolvedType owner field.typeName)

/-- The size, alignment and array layout of a field whose elements are of the given shape. -/
def extent? (field : FieldDeclaration) (shape : FieldShape) :
    Option (Nat × Nat × Option ArrayLayout) :=
  match field.arrayLength with
  | none => some (shape.size, shape.alignment, none)
  | some length => do
    let stride ← arrayStride shape.size shape.alignment
    return (← checked (stride * length), max shape.alignment minAlignment, some ⟨length, stride⟩)

/-- The first place behind `cursor` that has the field's alignment, if the field ends inside 32
bits there. -/
def place? (field : FieldDeclaration) (shape : FieldShape) (cursor : Nat) : Option FieldLayout := do
  let (size, alignment, array) ← field.extent? shape
  let offset ← checkedRoundUp cursor alignment
  let _ ← checked (offset + size)
  return { name := field.name, typeName := field.typeName, shape, offset, size, alignment, array,
           qualifiers := field.qualifiers }

/-- The field in the first place behind `cursor`. -/
def layOut (field : FieldDeclaration) (owner : String) (nested : LayoutTable) (cursor : Nat) :
    Except CompileError FieldLayout := do
  let shape ← field.shape owner nested
  match field.place? shape cursor with
  | some placed => return placed
  | none => throw (.layoutOverflow owner field.name)

end FieldDeclaration

/-- The fields one behind the other, from `cursor` on. -/
def layOutFields (owner : String) (nested : LayoutTable) :
    (cursor : Nat) → List FieldDeclaration → Except CompileError (List FieldLayout)
  | _, [] => .ok []
  | cursor, field :: rest => do
    let placed ← field.layOut owner nested cursor
    return placed :: (← layOutFields owner nested placed.finish rest)

/-- The greatest alignment of the fields, and at least `minAlignment`. -/
def commonAlignment (fields : List FieldLayout) : Nat :=
  fields.foldl (fun alignment field => max alignment field.alignment) minAlignment

def finishOfFields (fields : List FieldLayout) : Nat :=
  fields.getLast?.elim 0 FieldLayout.finish

/-- The std140 layout of a declaration whose content hash is given. When only the final rounding
does not fit, the last field is named. -/
def TypeDeclaration.layOut (decl : TypeDeclaration) (contentHash : String) (nested : LayoutTable) :
    Except CompileError StructLayout := do
  let fields ← layOutFields decl.name nested 0 decl.fields
  let alignment := commonAlignment fields
  match checkedRoundUp (finishOfFields fields) alignment with
  | some size =>
    return { name := decl.name, contentHash, kind := decl.kind, fields, size, alignment }
  | none => throw (.layoutOverflow decl.name (fields.getLast?.elim "" FieldLayout.name))

end UniformLayout
