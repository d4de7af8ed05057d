import UniformLayout.Numeric.Align

/-!
# Base types

The types of GLSL that are not declared by the user: scalars, vectors, matrices, and the handles
(samplers, images, atomic counters) that stand for a resource and carry no packed data. Each has a
std140 size and base alignment; a matrix is stored as an array of column vectors, so its columns
are `columnStride` bytes apart.

Main statement: `BaseType.columnStride_matrix`.
-/

namespace UniformLayout

/-- The component type of scalars, vectors and matrices. -/
inductive ScalarKind where
  | bool
  | int
  | uint
  | float
  | double
  deriving DecidableEq, Repr, Inhabited

/-- Bytes of one component. A boolean takes a whole 32-bit word. -/
def ScalarKind.size : ScalarKind → Nat
  | .double => 8
  | _ => 4

/-- What a sampler or an image is bound to. -/
inductive TextureTarget where
  | texture1D
  | texture2D
  | texture3D
  | cubeMap
  | rectangle
  | texture1DArray
  | texture2DArray
  | cubeMapArray
  | buffer
  | multisample2D
  | multisample2DArray
  deriving DecidableEq, Repr, Inhabited

/-- A type whose values are handles of resources outside the buffer. -/
inductive HandleKind where
  | sampler (target : TextureTarget)
  | image (target : TextureTarget)
  | atomicCounter
  deriving DecidableEq, Repr, Inhabited

def HandleKind.target? : HandleKind → Option TextureTarget
  | .sampler target => some target
  | .image target => some target
  | .atomicCounter => none

/-- A type that is not declared by the user. A matrix has `columns` columns of `rows` components
each and is stored column after column. -/
inductive BaseType where
  | scalar (kind : ScalarKind)
  | vector (kind : ScalarKind) (lanes : Nat)
  | matrix (kind : ScalarKind) (columns rows : Nat)
  | handle (kind : HandleKind)
  deriving DecidableEq, Repr, Inhabited

namespace BaseType

def isHandle : BaseType → Bool
  | .handle _ => true
  | _ => false

def scalarKind? : BaseType → Option ScalarKind
  | .scalar kind => some kind
  | .vector kind _ => some kind
  | .matrix kind _ _ => some kind
  | .handle _ => none

/-- The base alignment of a vector: two components for two lanes, four for any other number. -/
def vectorAlignment (kind : ScalarKind) (lanes : Nat) : Nat :=
  if lanes = 2 then 2 * kind.size else 4 * kind.size

/-- The distance between matrix columns: the alignment of a column vector, at least
`minAlignment`, rounded up to it. -/
def matrixStride (kind : ScalarKind) (rows : Nat) : Nat :=
  roundUp (max (vectorAlignment kind rows) minAlignment) minAlignment

/-- Bytes of data, without any padding behind them. A handle takes the slot of a 32-bit scalar. -/
def size : BaseType → Nat
  | .scalar kind => kind.size
  | .vector kind lanes => lanes * kind.size
  | .matrix kind columns rows => columns * matrixStride kind rows
  | .handle _ => 4

/-- The distance between the columns of a matrix; the size of any other type. -/
def columnStride : BaseType → Nat
  | .matrix kind _ rows => matrixStride kind rows
  | type => type.size

def alignment : BaseType → Nat
  | .scalar kind => kind.size
  | .vector kind lanes => vectorAlignment kind lanes
  | .matrix kind _ rows => matrixStride kind rows
  | .handle _ => 4

/-- Columns are 32 bytes apart when they hold more than two doubles, else 16. -/
theorem columnStride_matrix (kind : ScalarKind) (columns rows : Nat) :
    (matrix kind columns rows).columnStride = if kind = .double ∧ rows ≠ 2 then 32 else 16 := by
  by_cases h : rows = 2 <;> cases kind <;>
    simp [columnStride, matrixStride, vectorAlignment, ScalarKind.size, roundUp, minAlignment, h]

end BaseType

end UniformLayout
