import UniformLayout.Schema

/-!
# Host types

The types of the members of a generated plain-data struct. Every base type has a host type of exactly
its std140 size: booleans are 32-bit words, matrix columns are widened to the column stride, and
handles are signed 32-bit words.
-/

namespace UniformLayout

/-- The type of a member of a generated struct. -/
inductive HostType where
  | byte
  | component (kind : ScalarKind)
  | array (element : HostType) (length : Nat)
  | named (name : String)
  deriving DecidableEq, Repr

def ScalarKind.hostName : ScalarKind → String
  | .bool => "u32"
  | .int => "i32"
  | .uint => "u32"
  | .float => "f32"
  | .double => "f64"

/-- The type as it is written in a generated source. -/
def HostType.text : HostType → String
  | .byte => "u8"
  | .component kind => kind.hostName
  | .array element length => s!"[{element.text}; {length}]"
  | .named name => name

def BaseType.hostType : BaseType → HostType
  | .scalar kind => .component kind
  | .vector kind lanes => .array (.component kind) lanes
  | .matrix kind columns rows =>
    .array (.array (.component kind) (matrixStride kind rows / kind.size)) columns
  | .handle _ => .component .int

/-- The name of the plain-data struct of a host type. -/
def dataName (name : String) : String := name ++ "Data"

def FieldKind.hostType : FieldKind → HostType
  | .value type => type.hostType
  | .handle _ => .component .int
  | .aggregate schema => .named (dataName schema.name)

end UniformLayout
