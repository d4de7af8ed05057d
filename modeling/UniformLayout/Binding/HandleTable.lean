import UniformLayout.BaseType.Name
import UniformLayout.Table

/-!
# Texture handles

The host's graphics layer owns texture handles; a `HandleTable` remembers which handle is bound to
each texture unit, in the order of the units.

Main statement: `HandleTable.get?_put`.
-/

namespace UniformLayout

/-- A texture of the host, known by a 64-bit number. -/
structure TextureHandle where
  id : Nat
  deriving DecidableEq, Repr, Inhabited

/-- The handles bound to texture units, with the target of each. -/
abbrev HandleTable := Table Nat (Option TextureTarget × TextureHandle)

namespace HandleTable

/-- Binds a handle to a unit, in place of what was bound there. -/
def put (table : HandleTable) (unit : Nat) (target : Option TextureTarget)
    (handle : TextureHandle) : HandleTable :=
  Table.insert unit (target, handle) table

def get? (table : HandleTable) (unit : Nat) : Option (Option TextureTarget × TextureHandle) :=
  table.lookup unit

/-- A bound handle is found at its unit, and every other unit keeps its handle. -/
theorem get?_put (table : HandleTable) (unit other : Nat) (target : Option TextureTarget)
    (handle : TextureHandle) : (table.put unit target handle).get? other =
      if other = unit then some (target, handle) else table.get? other := by
  by_cases h : other = unit
  · subst h
    simp [put, get?, Table.lookup_insert_self]
  · simp [put, get?, h, Table.lookup_insert_of_ne h]

end HandleTable

end UniformLayout
