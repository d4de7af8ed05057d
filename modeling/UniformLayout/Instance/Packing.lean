import UniformLayout.Instance

/-!
# The std140 image of an instance

Values are written in their std140 encoding, handles as the texture unit that they are bound to (0
where there is none), and nested instances at the offsets of their elements. Bytes that belong to no
field keep what the image held before.
-/

namespace UniformLayout

/-- Writes values that start at `base` and lie `stride` bytes apart. -/
def writeValues? (base stride : Nat) : List UniformValue → Image → Option Image
  | [], image => some image
  | value :: rest, image => do
    writeValues? (base + stride) stride rest (← value.writeTo? base image)

/-- Writes the texture units of `count` handles that start at `base` and lie `stride` bytes apart.
The first one is bound to `unit`. -/
def writeUnits? (base stride : Nat) (unit : Option Nat) : (count : Nat) → Image → Option Image
  | 0, image => some image
  | count + 1, image => do
    let image ← image.store? base (Image.littleEndian 4 (unit.getD 0))
    writeUnits? (base + stride) stride (unit.map (· + 1)) count image

mutual

/-- Writes an instance that starts at `base`. -/
def StructInstance.writeAt? (base : Nat) : StructInstance → Image → Option Image
  | ⟨schema, fields, _⟩, image => writeFieldsAt? base schema.fields fields image

def writeFieldsAt? (base : Nat) : List FieldSchema → List FieldState → Image → Option Image
  | schema :: schemas, state :: states, image => do
    writeFieldsAt? base schemas states (← state.writeAt? (base + schema.offset) schema.stride image)
  | _, _, image => some image

/-- Writes the elements of a field that starts at `base`. -/
def FieldState.writeAt? (base stride : Nat) : FieldState → Image → Option Image
  | ⟨.values list, _, _, _⟩, image => writeValues? base stride list image
  | ⟨.handles list, _, _, unit⟩, image => writeUnits? base stride unit list.length image
  | ⟨.children list, _, _, _⟩, image => writeChildrenAt? base stride list image

/-- Writes instances that start at `base` and lie `stride` bytes apart. -/
def writeChildrenAt? (base stride : Nat) : List StructInstance → Image → Option Image
  | [], image => some image
  | child :: rest, image => do
    if base > image.size then none
    writeChildrenAt? (base + stride) stride rest (← child.writeAt? base image)

end

namespace StructInstance

def writeTo? (inst : StructInstance) (image : Image) : Option Image := inst.writeAt? 0 image

/-- The image of the instance, exactly as long as its type. -/
def image? (inst : StructInstance) : Option Image :=
  inst.writeTo? (Image.filled inst.schema.size 0)

end StructInstance

end UniformLayout
