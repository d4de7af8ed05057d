import UniformLayout.Declaration
import UniformLayout.Identity.Sha1
import UniformLayout.Text.Digits

/-!
# Type identities

A declared aggregate is known by the digest of its structure. The fingerprint that is digested
covers the declaration's kind and every field's type, name, array length and explicit binding, in
order; the declared name is left out, so renaming a type keeps its identity. An aggregate field type
whose own hash is known stands in the fingerprint by that hash.

Main statement: `fingerprint_congr`.
-/

namespace UniformLayout

/-- How the host knows a type: the digest of its structure, a short id that stays the same over
sessions, and the name of its generated host type. -/
structure TypeIdentity where
  contentHash : String
  persistentId : String
  generatedName : String
  deriving DecidableEq, Repr, Inhabited

/-- Type names with the content hash of the type they mean. -/
abbrev HashTable := List (String × String)

namespace TypeDeclaration

def fieldPrint (nested : HashTable) (field : FieldDeclaration) : String :=
  "\n" ++ (nested.lookup field.typeName).getD field.typeName ++ " " ++ field.name ++
    (field.arrayLength.elim "" fun length => s!"[{length}]") ++
    (field.qualifiers.binding.elim "" fun binding => s!"@{binding}")

/-- The text that is digested: the kind's tag and a line for each field. -/
def fingerprint (decl : TypeDeclaration) (nested : HashTable) : String :=
  String.join (decl.kind.tag :: decl.fields.map (fieldPrint nested))

/-- The digest of the fingerprint in hexadecimal digits. -/
def contentHash (decl : TypeDeclaration) (nested : HashTable) : String :=
  Text.hex (Sha1.sha1 (decl.fingerprint nested).toUTF8.data.toList)

/-- The declared name, the attributes and the place of a declaration do not enter its hash. -/
theorem fingerprint_congr {a b : TypeDeclaration} (nested : HashTable) (hk : a.kind.tag = b.kind.tag)
    (hf : a.fields = b.fields) : a.fingerprint nested = b.fingerprint nested := by
  simp [fingerprint, hk, hf]

end TypeDeclaration

end UniformLayout
