import UniformLayout.BaseType
import UniformLayout.Text.Cut

/-!
# Names of base types

`BaseType.ofName?` reads a GLSL type name and gives nothing for names the user declares.
`BaseType.display` writes a type: scalars, vectors and matrices under their GLSL name, and handles by
what they are bound to, since several names mean the same handle.

Main statement: `TextureTarget.mem_all`.
-/

namespace UniformLayout

namespace ScalarKind

def name : ScalarKind → String
  | .bool => "bool"
  | .int => "int"
  | .uint => "uint"
  | .float => "float"
  | .double => "double"

def vectorMark : ScalarKind → String
  | .bool => "b"
  | .int => "i"
  | .uint => "u"
  | .float => ""
  | .double => "d"

def ofName? (name : String) : Option ScalarKind :=
  [bool, int, uint, float, double].find? (·.name == name)

end ScalarKind

namespace TextureTarget

def display : TextureTarget → String
  | .texture1D => "Texture1D"
  | .texture2D => "Texture2D"
  | .texture3D => "Texture3D"
  | .cubeMap => "CubeMap"
  | .rectangle => "Rectangle"
  | .texture1DArray => "Texture1DArray"
  | .texture2DArray => "Texture2DArray"
  | .cubeMapArray => "CubeMapArray"
  | .buffer => "Buffer"
  | .multisample2D => "Multisample2D"
  | .multisample2DArray => "Multisample2DArray"

/-- What stands behind `sampler` or `image` in a type name. -/
def suffix : TextureTarget → String
  | .texture1D => "1D"
  | .texture2D => "2D"
  | .texture3D => "3D"
  | .cubeMap => "Cube"
  | .rectangle => "2DRect"
  | .texture1DArray => "1DArray"
  | .texture2DArray => "2DArray"
  | .cubeMapArray => "CubeArray"
  | .buffer => "Buffer"
  | .multisample2D => "2DMS"
  | .multisample2DArray => "2DMSArray"

def all : List TextureTarget :=
  [texture1D, texture2D, texture3D, cubeMap, rectangle, texture1DArray, texture2DArray,
    cubeMapArray, buffer, multisample2D, multisample2DArray]

def ofSuffix? (text : List Char) : Option TextureTarget :=
  all.find? (·.suffix.toList == text)

theorem mem_all (target : TextureTarget) : target ∈ all := by
  cases target <;> decide

end TextureTarget

namespace HandleKind

/-- A sampler or image name without its component letter. A sampler may carry a final `Shadow`. -/
def ofPlainName? (name : List Char) : Option HandleKind :=
  match Text.cutStart? "sampler".toList name with
  | some suffix =>
    let plain := (Text.cutEnd? "Shadow".toList suffix).getD suffix
    (TextureTarget.ofSuffix? plain).map .sampler
  | none => do
    let suffix ← Text.cutStart? "image".toList name
    (TextureTarget.ofSuffix? suffix).map .image

/-- A handle type's name: an atomic counter, or a sampler or image with an optional letter for
integer or unsigned components. -/
def ofName? (name : List Char) : Option HandleKind :=
  if name = "atomic_uint".toList then some .atomicCounter
  else
    match ofPlainName? name, name with
    | some kind, _ => some kind
    | none, 'i' :: rest => ofPlainName? rest
    | none, 'u' :: rest => ofPlainName? rest
    | none, _ => none

def display : HandleKind → String
  | .sampler target => s!"sampler({target.display})"
  | .image target => s!"image({target.display})"
  | .atomicCounter => "atomic_uint"

end HandleKind

namespace BaseType

/-- The number of lanes, columns or rows that a type name can give. -/
def dimension? : List Char → Option Nat
  | ['2'] => some 2
  | ['3'] => some 3
  | ['4'] => some 4
  | _ => none

/-- A vector name: a component letter, `vec` and the number of lanes. -/
def vectorOfName? (name : List Char) : Option BaseType :=
  let (kind, rest) : ScalarKind × List Char := match name with
    | 'b' :: rest => (.bool, rest)
    | 'i' :: rest => (.int, rest)
    | 'u' :: rest => (.uint, rest)
    | 'd' :: rest => (.double, rest)
    | _ => (.float, name)
  match rest with
  | 'v' :: 'e' :: 'c' :: lanes => (dimension? lanes).map (.vector kind)
  | _ => none

/-- A matrix name: `mat` with one dimension for a square matrix, or columns and rows with an `x`
between them, and a leading `d` for doubles. -/
def matrixOfName? (name : List Char) : Option BaseType :=
  let (kind, rest) : ScalarKind × List Char := match name with
    | 'd' :: rest => (.double, rest)
    | _ => (.float, name)
  match rest with
  | ['m', 'a', 't', columns, 'x', rows] => do
    return .matrix kind (← dimension? [columns]) (← dimension? [rows])
  | 'm' :: 'a' :: 't' :: side => (dimension? side).map fun n => .matrix kind n n
  | _ => none

/-- The base type of that name, or nothing for a name that the user declares. -/
def ofName? (name : String) : Option BaseType :=
  let cs := name.toList
  ((ScalarKind.ofName? name).map .scalar).or <|
    (vectorOfName? cs).or <| (matrixOfName? cs).or <| (HandleKind.ofName? cs).map .handle

def display : BaseType → String
  | .scalar kind => kind.name
  | .vector kind lanes => s!"{kind.vectorMark}vec{lanes}"
  | .matrix kind columns rows =>
    let mark := if kind = .double then "d" else ""
    if columns = rows then s!"{mark}mat{columns}" else s!"{mark}mat{columns}x{rows}"
  | .handle kind => kind.display

end BaseType

end UniformLayout
