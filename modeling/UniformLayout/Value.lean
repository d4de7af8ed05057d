import UniformLayout.BaseType.Name
import UniformLayout.Image

/-!
# Uniform values

A value of a base type that is not a handle. Its components are kept as bit patterns, matrices
column after column. A square matrix comes in two forms: the one of its own type name, and the
general form, which can have any number of components and is well formed when it has as many as its
type.

Main statements: `UniformValue.wellFormed_zero?` and `UniformValue.baseType_zero?`.
-/

namespace UniformLayout

/-- How the components of a value are arranged. -/
inductive ValueShape where
  | scalar
  | vector (lanes : Nat)
  | square (side : Nat)
  | matrix (columns rows : Nat)
  deriving DecidableEq, Repr, Inhabited

/-- The number of components that a value of the shape has. -/
def ValueShape.count : ValueShape → Nat
  | .scalar => 1
  | .vector lanes => lanes
  | .square side => side * side
  | .matrix columns rows => columns * rows

/-- A value: the kind of its components, their arrangement, and the bit pattern of each. A boolean
is 0 or 1, and an integer is in two's complement. -/
structure UniformValue where
  kind : ScalarKind
  shape : ValueShape
  components : List UInt64
  deriving DecidableEq, Repr, Inhabited

namespace UniformValue

def baseType (value : UniformValue) : BaseType :=
  match value.shape with
  | .scalar => .scalar value.kind
  | .vector lanes => .vector value.kind lanes
  | .square side => .matrix value.kind side side
  | .matrix columns rows => .matrix value.kind columns rows

def isWellFormed (value : UniformValue) : Bool :=
  value.components.length == value.shape.count

/-- The value's type for messages, with the number of components where that is wrong. -/
def describe (value : UniformValue) : String :=
  if value.isWellFormed then value.baseType.display
  else s!"{value.baseType.display} with {value.components.length} components"

/-- The shape of the zero of a type; handles have none. -/
def zeroShape? : BaseType → Option (ScalarKind × ValueShape)
  | .scalar kind => some (kind, .scalar)
  | .vector kind lanes => some (kind, .vector lanes)
  | .matrix kind columns rows =>
    some (kind, if columns = rows then .square columns else .matrix columns rows)
  | .handle _ => none

/-- The value of a type whose components are all zero. Square matrices take their own form. -/
def zero? (type : BaseType) : Option UniformValue :=
  (zeroShape? type).map fun (kind, shape) => ⟨kind, shape, List.replicate shape.count 0⟩

theorem wellFormed_zero? {type : BaseType} {value : UniformValue} (h : zero? type = some value) :
    value.isWellFormed = true := by
  simp only [zero?, Option.map_eq_some_iff] at h
  obtain ⟨_, _, rfl⟩ := h
  simp [isWellFormed]

theorem baseType_zero? {type : BaseType} {value : UniformValue} (h : zero? type = some value) :
    value.baseType = type := by
  simp only [zero?, Option.map_eq_some_iff] at h
  obtain ⟨⟨kind, shape⟩, hs, rfl⟩ := h
  cases type with
  | scalar k | vector k n => simp only [zeroShape?, Option.some.injEq, Prod.mk.injEq] at hs
                             obtain ⟨rfl, rfl⟩ := hs
                             rfl
  | matrix k columns rows =>
    simp only [zeroShape?, Option.some.injEq, Prod.mk.injEq] at hs
    obtain ⟨rfl, rfl⟩ := hs
    by_cases hc : columns = rows
    · subst hc; simp [baseType]
    · simp [baseType, hc]
  | handle _ => simp [zeroShape?] at hs

/-! ## Equality

Floating-point components compare as numbers: a NaN differs from itself, and the two zeros are
equal. -/

/-- Whether two bit patterns of `bits` bits, of which `mantissa` belong to the mantissa, are equal
as floating-point numbers. -/
def floatEq (bits mantissa : Nat) (a b : UInt64) : Bool :=
  let magnitude (x : UInt64) : Nat := x.toNat % (1 <<< (bits - 1))
  let infinity : Nat := (1 <<< (bits - 1)) - (1 <<< mantissa)
  magnitude a ≤ infinity && magnitude b ≤ infinity && (a == b || (magnitude a == 0 && magnitude b == 0))

def componentEq : ScalarKind → UInt64 → UInt64 → Bool
  | .float, a, b => floatEq 32 23 a b
  | .double, a, b => floatEq 64 52 a b
  | _, a, b => a == b

/-- Two values are equal in type, form and components. -/
def eqValue (a b : UniformValue) : Bool :=
  a.kind == b.kind && a.shape == b.shape && a.components.length == b.components.length &&
    (a.components.zip b.components).all fun (x, y) => componentEq a.kind x y

/-! ## Encoding -/

/-- The bytes of some components, one behind the other. -/
def bytesOf (kind : ScalarKind) (components : List UInt64) : List UInt8 :=
  components.flatMap fun component => Image.littleEndian kind.size component.toNat

/-- The components cut into columns of `rows` components, each with the offset of its first byte. The
last column may be shorter. -/
def columnsOf (stride rows : Nat) (components : List UInt64) : List (Nat × List UInt64) :=
  (List.range ((components.length + rows - 1) / rows)).map fun column =>
    (column * stride, (components.drop (column * rows)).take rows)

/-- The pieces of the std140 encoding with their offsets. A matrix of columns without rows has no
encoding. -/
def encoding? (value : UniformValue) : Option (List (Nat × List UInt8)) :=
  let inColumns (columns rows : Nat) : List (Nat × List UInt8) :=
    let used := value.components.take (columns * rows)
    (columnsOf value.baseType.columnStride rows used).map fun (offset, column) =>
      (offset, bytesOf value.kind column)
  match value.shape with
  | .scalar | .vector _ => some [(0, bytesOf value.kind value.components)]
  | .square side => some (inColumns side side)
  | .matrix columns rows => if rows = 0 then none else some (inColumns columns rows)

/-- Writes the std140 encoding from `offset` on. Nothing is given when the value has no encoding or
the image does not hold it. -/
def writeTo? (value : UniformValue) (offset : Nat) (image : Image) : Option Image := do
  if offset > image.size then none
  (← value.encoding?).foldlM (fun image (at_, bytes) => image.store? (offset + at_) bytes) image

end UniformValue

end UniformLayout
